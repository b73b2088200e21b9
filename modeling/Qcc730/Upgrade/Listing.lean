import Qcc730.Upgrade.Completion
import Qcc730.Upgrade.Resumption

/-! What the trial FWD lists, also after a resume.

    A session that is suspended loses its hash and its handle, so the ledger ends there. What the trial FWD lists
    depends on neither: after the header it lists the partitions taken over and images of the header, and an SBL
    among them has the address of the SBL slot. -/

namespace Qcc730.Upgrade
open Lib Flash Sbl

/-- A header that brings an SBL makes a FWD that the boot loader knows. -/
def SblHeader (b : Bytes) : Prop :=
  HeaderUsed b ∧ ((∃ h ∈ imageHdrs b (ImageSetHdr.decode b).numImages, h.imageId = sblImgId) →
    (ImageSetHdr.decode b).magic = fwUpgradeMagicV1)

instance (b : Bytes) : Decidable (SblHeader b) := inferInstanceAs (Decidable (_ ∧ (_ → _)))

/-- If `e` is an SBL entry, it points to the SBL slot and the header `b` brings an SBL. -/
def InSlot (A : Area) (b : Bytes) (e : ImageEntry) : Prop :=
  e.imageId = sblImgId →
    e.startBlock = u32 A.sbl.start ∧ ∃ x ∈ imageHdrs b (ImageSetHdr.decode b).numImages, x.imageId = sblImgId

/-- What the trial FWD lists after the header `b`. -/
structure Listing (env : Env) (fu₀ : Fu) (A : Area) (b : Bytes) (hid es : List ImageEntry) (s : Session) : Prop where
  header : SblHeader b
  announced : Announced env.cfg fu₀.dev.mem A b hid s.cxt.head
  lists : Lists (s.fu.dev.mem.fwd A.trial) ((ImageSetHdr.decode b).front s.cxt.head.hidden) es
  slot : ∀ e ∈ es, InSlot A b e

/-- The trial FWD and what the header set are as before. -/
structure SameTable (A : Area) (s s' : Session) : Prop where
  fwd : s'.fu.dev.mem.fwd A.trial = s.fu.dev.mem.fwd A.trial
  head : s'.cxt.head = s.cxt.head

theorem SameTable.of_dev {A : Area} {s s' : Session} (hd : s'.fu.dev = s.fu.dev) (hh : s'.cxt.head = s.cxt.head) :
    SameTable A s s' := ⟨by rw [hd], hh⟩

theorem SameTable.trans {A : Area} {s s₁ s₂ : Session} (h : SameTable A s s₁) (h' : SameTable A s₁ s₂) :
    SameTable A s s₂ := ⟨h'.fwd.trans h.fwd, h'.head.trans h.head⟩

/-- A change behind the FWD blocks. -/
theorem OnlyIn.fwd {c : Spot} {m m' : Mem} (h : OnlyIn c m m')
    (hc : c.imgId ≠ sblImgId → c.imgSize = 0 ∨ fwUpgradeMaxFwd * 4096 ≤ c.imgStart) {t : ℕ} (ht : t < fwUpgradeMaxFwd) :
    m'.fwd t = m.fwd t := by
  refine Mem.fwd_congr fun x hx => h.low hc ?_
  rw [Range.mem_mk] at hx
  simp only [fwUpgradeMaxFwd] at ht ⊢
  omega

section

variable {env : Env} {fu₀ : Fu} {A : Area} {s s' : Session} {b : Bytes} {hid es : List ImageEntry}

theorem Listing.same (h : Listing env fu₀ A b hid es s) (hs : SameTable A s s') : Listing env fu₀ A b hid es s' := by
  refine ⟨h.header, ?_, ?_, h.slot⟩
  · rw [hs.head]
    exact h.announced
  · rw [hs.fwd, hs.head]
    exact h.lists

/-- The entries of the header, as the session has them. -/
theorem Announced.hdrAt {cfg : Config} {m₀ : Mem} {c : Cxt} (h : Announced cfg m₀ A b hid c.head) (env : Env) {i : ℕ}
    (hi : i < c.totalImages) :
    ∃ x ∈ imageHdrs b (ImageSetHdr.decode b).numImages, c.hdrAt env i = x.adjust := by
  have hh : c.imageHdr = (imageHdrs b (ImageSetHdr.decode b).numImages).map ImageHdr.adjust := h.hdrs
  have htot : c.totalImages = (ImageSetHdr.decode b).numImages := h.total
  have hlt : i < c.imageHdr.length := by
    rw [hh, List.length_map, imageHdrs, List.length_map, List.length_range, ← htot]
    exact hi
  have hmem : c.hdrAt env i ∈ c.imageHdr := by
    rw [Cxt.hdrAt, List.getD_eq_getElem _ _ hlt]
    exact List.getElem_mem hlt
  rw [hh] at hmem
  obtain ⟨x, hx, hxe⟩ := List.mem_map.mp hmem
  exact ⟨x, hx, hxe.symm⟩

theorem imageHdrs_id_lt {n : ℕ} {x : ImageHdr} (h : x ∈ imageHdrs b n) : x.imageId < 2 ^ 32 := by
  obtain ⟨i, -, rfl⟩ := List.mem_map.mp h
  exact wordAt_lt _ _

/-- The entry of an image of the header. -/
theorem imageEntry_inSlot {x : ImageHdr} (hx : x ∈ imageHdrs b (ImageSetHdr.decode b).numImages) (start : ℕ) :
    InSlot A b (imageEntry A start x.adjust) := by
  intro hsbl
  have hid : u32 x.adjust.imageId = sblImgId := by
    rw [imageEntry, truncEntry] at hsbl
    simpa only [newEntry_imageId] using hsbl
  have hxid : x.adjust.imageId = x.imageId := ImageHdr.adjust_imageId _
  rw [hxid, u32_of_lt (imageHdrs_id_lt hx)] at hid
  refine ⟨?_, x, hx, hid⟩
  rw [hid] at hxid
  have hfs : x.adjust.imageId ≠ fs1ImgId := by
    rw [hxid]
    decide
  rw [imageEntry, imagePlace, if_neg hfs, if_pos hxid, newEntry, if_neg (not_not.mpr hxid)]
  rfl

/-- The entry of an image that is not the SBL. -/
theorem inSlot_of_ne {e : ImageEntry} (h : e.imageId ≠ sblImgId) : InSlot A b e := fun hc => absurd hc h

/-- The entries of the images placed so far. -/
theorem Ledger.inSlot {c : Cxt} {m₀ m : Mem} {v : List (ℕ × Bytes)} {items : List Item}
    (h : Ledger env.cfg A (c.plan env) v m items) (ha : Announced env.cfg m₀ A b hid c.head) {e : ImageEntry}
    (he : e ∈ items.map ((c.plan env).entry A)) : InSlot A b e := by
  obtain ⟨it, hit, rfl⟩ := List.mem_map.mp he
  by_cases hlt : it.index < c.totalImages
  · obtain ⟨x, hx, hxe⟩ := ha.hdrAt env hlt
    have hent : (c.plan env).entry A it = imageEntry A it.start x.adjust := congrArg (imageEntry A it.start) hxe
    rw [hent]
    exact imageEntry_inSlot hx _
  · refine inSlot_of_ne ?_
    rw [Plan.entry, imageEntry, truncEntry]
    show u32 (newEntry _ _ _ _).imageId ≠ _
    rw [newEntry_imageId, (h.known it hit (Nat.le_of_not_lt hlt)).1]
    decide

theorem Announced.hidden_inSlot {cfg : Config} {m₀ : Mem} {H : Head} (h : Announced cfg m₀ A b hid H) {e : ImageEntry}
    (he : e ∈ hid) : InSlot A b e := by
  refine inSlot_of_ne fun hc => ?_
  have := h.hidden e he
  rw [hc] at this
  exact absurd this (by decide)

/-- What the ledger says about the table, while images are received. -/
theorem Accounted.listing {H : Head} (h : Accounted env A H ((ImageSetHdr.decode b).front H.hidden) hid s)
    (hb : SblHeader b) (ha : Announced env.cfg fu₀.dev.mem A b hid H) (hd : s.cxt.imageWrtLength ≠ 0 → Downloading s.cxt) :
    ∃ es, Listing env fu₀ A b hid es s := by
  cases h with
  | idle items hH _ _ h =>
    subst hH
    refine ⟨_, hb, ha, h.lists, fun e he => ?_⟩
    rcases List.mem_append.mp he with he | he
    · exact ha.hidden_inSlot he
    · exact h.ledger.inSlot ha he
  | filling items k hH hw _ h =>
    subst hH
    refine ⟨_, hb, ha, h.lists, fun e he => ?_⟩
    rcases List.mem_append.mp he with he | he
    · rcases List.mem_append.mp he with he | he
      · exact ha.hidden_inSlot he
      · exact h.ledger.inSlot ha he
    · rw [List.mem_singleton.mp he]
      obtain ⟨x, hx, hxe⟩ := ha.hdrAt env (hd hw).index
      rw [show s.hdr env = x.adjust from hxe]
      exact imageEntry_inSlot hx _

/-- What it says once all images are in place. -/
theorem Placed.listing {items : List Item} {copies : List ImageEntry}
    (h : Placed env A ((ImageSetHdr.decode b).front s.cxt.head.hidden) hid items copies s) (hb : SblHeader b)
    (ha : Announced env.cfg fu₀.dev.mem A b hid s.cxt.head) : ∃ es, Listing env fu₀ A b hid es s := by
  refine ⟨_, hb, ha, h.lists, fun e he => ?_⟩
  rcases List.mem_append.mp he with he | he
  · rcases List.mem_append.mp he with he | he
    · exact ha.hidden_inSlot he
    · exact h.ledger.inSlot ha he
  · -- a copy
    refine inSlot_of_ne fun hsbl => ?_
    obtain ⟨p, hp, -, hc, hpe⟩ := h.copied.only e he
    obtain ⟨i, hi, rfl⟩ := List.mem_map.mp hp
    obtain ⟨x, hx, hxe⟩ := ha.hdrAt env (List.mem_range.mp hi)
    have hxid : (s.cxt.hdrAt env i).imageId = x.imageId := by rw [hxe, ImageHdr.adjust_imageId]
    rw [hsbl, hxid, u32_of_lt (imageHdrs_id_lt hx), ← hxid] at hpe
    exact hc.2.2 hpe.symm

/-- One more entry. -/
theorem Listing.add (h : Listing env fu₀ A b hid es s) {e : ImageEntry} (he : InSlot A b e)
    (hl : Lists (s'.fu.dev.mem.fwd A.trial) ((ImageSetHdr.decode b).front s.cxt.head.hidden) (es ++ [e]))
    (hh : s'.cxt.head = s.cxt.head) : Listing env fu₀ A b hid (es ++ [e]) s' := by
  refine ⟨h.header, by rw [hh]; exact h.announced, by rw [hh]; exact hl, fun x hx => ?_⟩
  rcases List.mem_append.mp hx with hx | hx
  · exact h.slot x hx
  · rw [List.mem_singleton.mp hx]
    exact he

/-! ### An image -/

/-- A piece of an image goes to its partition. -/
theorem writeImage_same (hL : Layout env.cfg fu₀ A) (ho : A.OffFwds) (ht : A.trial < fwUpgradeMaxFwd) {k n : ℕ}
    (hk : Opened A s k) (h0 : 0 < n) (hbuf : s.cxt.buffer.length ≤ fwUpgradeBufSize)
    (hn : n ≤ s.cxt.buffer.length - s.cxt.bufOffset) (hlen : s.cxt.imageWrtCount + n ≤ s.cxt.imageWrtLength)
    (heq : writeImage n s = (.ok (), s')) : SameTable A s s' ∧ Opened A s' k ∧ 0 < s'.cxt.imageWrtLength := by
  obtain ⟨fu', rfl, hh, hsz, hin, -⟩ := writeImage_ok hL.sane hk h0 hbuf hn hlen heq
  refine ⟨⟨hin.fwd (hk.holds.off ho) ht, rfl⟩, hk.keep hh rfl rfl hlen hsz, ?_⟩
  show 0 < s.cxt.imageWrtLength
  omega

theorem eraseNext_same (hL : Layout env.cfg fu₀ A) (ho : A.OffFwds) (ht : A.trial < fwUpgradeMaxFwd) {k : ℕ}
    (hk : Opened A s k) (hpos : 0 < s.cxt.imageWrtLength) (heq : eraseNext s = (.ok (), s')) : SameTable A s s' := by
  obtain ⟨fu', rfl, -, hin, -⟩ := eraseNext_ok hL.sane hk hpos heq
  exact ⟨hin.fwd (hk.holds.off ho) ht, rfl⟩

theorem closeImage_same {h : ImageHdr} (heq : closeImage h s = (.ok (), s')) :
    SameTable A s s' ∧ s'.cxt.imageWrtLength = 0 := by
  cases heq
  refine ⟨.of_dev ?_ ?_, rfl⟩
  · simp only [Session.setCxt, Session.freePartitionHdl_dev]
  · simp only [Session.setCxt, Session.freePartitionHdl_cxt]
    rfl

/-- The end of an image only checks its hash. -/
theorem finishImage_same {h : ImageHdr} {last : Bool} (heq : finishImage env h s = (.ok last, s')) :
    SameTable A s s' ∧ s'.cxt.imageWrtLength = 0 := by
  rw [finishImage] at heq
  obtain ⟨u, s₁, h₁, heq⟩ := Cmd.bind_eq_ok heq
  rw [verifyImageHash] at h₁
  split at h₁
  swap
  · cases h₁
  cases h₁
  obtain ⟨u, s₂, h₂, heq⟩ := Cmd.bind_eq_ok heq
  obtain ⟨hs₂, hw₂⟩ := closeImage_same (A := A) h₂
  have hs : SameTable A s s₂ := ⟨hs₂.fwd, hs₂.head⟩
  rw [Cmd.bind_ok (Cmd.gets_apply _ _)] at heq
  split at heq
  · cases heq
    exact ⟨⟨hs.fwd, hs.head⟩, hw₂⟩
  split at heq
  · cases heq
    exact ⟨⟨hs.fwd, hs.head⟩, hw₂⟩
  · cases heq
    exact ⟨hs, hw₂⟩

/-- A pass of the loop once the partition is open. -/
theorem receivePiece_same (hL : Layout env.cfg fu₀ A) (ho : A.OffFwds) (hb : Busy env A fu₀.dev s) {k : ℕ}
    (hk : Opened A s k) (hbuf : s.cxt.buffer ≠ []) (hoff : s.cxt.format ≠ formatPartialUpgrade →
      s.cxt.bufOffset < s.cxt.buffer.length ∧ s.cxt.imageWrtCount < s.cxt.imageWrtLength)
    {h : ImageHdr} {go : Bool} (heq : receivePiece env h s = (.ok go, s')) : SameTable A s s' := by
  rw [receivePiece, Cmd.bind_ok (Cmd.gets_apply _ _)] at heq
  rcases hwl : s.cxt.writeLen with e | n
  · rw [hwl] at heq
    cases heq
  rw [hwl] at heq
  obtain ⟨h0, hlen, hn⟩ := writeLen_bounds hwl hk.count hk.length hbuf hoff
  simp only at heq
  rw [Cmd.bind_ok (Cmd.modify_apply _ _)] at heq
  set s₁ := s.setCxt fun c => { c with bufOffset := if c.format = formatPartialUpgrade then 0 else c.bufOffset } with hs₁
  have hk₁ : Opened A s₁ k := hk.keep rfl rfl rfl hk.count hk.size
  obtain ⟨u, s₂, h₂, heq⟩ := Cmd.bind_eq_ok heq
  obtain ⟨hsame₂, hk₂, hpos₂⟩ := writeImage_same hL ho hb.grown.1 hk₁ h0 hb.placing.buffer hn hlen h₂
  have hs₂ : SameTable A s s₂ := ⟨hsame₂.fwd, hsame₂.head⟩
  obtain ⟨last, s₃, h₃, heq⟩ := Cmd.bind_eq_ok heq
  rw [finishIfWritten] at h₃
  split at h₃
  · obtain ⟨hsame₃, hw₃⟩ := finishImage_same (A := A) h₃
    split at heq
    · cases heq
      exact hs₂.trans hsame₃
    · have hn : eraseNext s₃ = (.ok (), s₃) := if_neg (by simp [hw₃])
      rw [Cmd.bind_ok hn] at heq
      cases heq
      exact hs₂.trans hsame₃
  · cases h₃
    simp only [Bool.false_eq_true, if_false] at heq
    obtain ⟨u, s₄, h₄, heq⟩ := Cmd.bind_eq_ok heq
    cases heq
    exact hs₂.trans (eraseNext_same hL ho hb.grown.1 hk₂ hpos₂ h₄)

/-- A new image: its entry is the next one. -/
theorem openImage_listing (hL : Layout env.cfg fu₀ A) (ho : A.OffFwds) (hb : Busy env A fu₀.dev s)
    (hd : Downloading s.cxt) (h : Listing env fu₀ A b hid es s) (heq : openImage (s.hdr env) s = (.ok (), s')) :
    ∃ es, Listing env fu₀ A b hid es s' := by
  have hu : u32 (s.hdr env).imageId ≠ fwdImageUnused := (h.announced.used h.header.1).hdr hb hd rfl
  obtain ⟨k, fu', rfl, hop, -⟩ := openImage_ok hL ho hb hd h.lists hu heq
  obtain ⟨x, hx, hxe⟩ := h.announced.hdrAt env hd.index
  refine ⟨_, h.add ?_ hop.lists rfl⟩
  rw [hxe]
  exact imageEntry_inSlot hx _

/-- A pass of the loop of `fw_upgrade_process_receive_image`. -/
theorem receivePass_listing (hL : Layout env.cfg fu₀ A) (ho : A.OffFwds) (hw : Working env A fu₀ s)
    (h : Listing env fu₀ A b hid es s) {go : Bool} (heq : receivePass env s = (.ok go, s')) :
    ∃ es, Listing env fu₀ A b hid es s' := by
  have hb := hw.busy
  have hd := hw.downloading
  rw [receivePass, Cmd.bind_ok (Cmd.gets_apply _ _)] at heq
  split at heq
  · cases heq
    exact ⟨es, h⟩
  rename_i hend
  have hoff : s.cxt.format ≠ formatPartialUpgrade → s.cxt.bufOffset < s.cxt.buffer.length := fun hf => by
    by_contra hle
    exact hend ⟨hf, by omega⟩
  split at heq
  · obtain ⟨u, s₁, h₁, heq⟩ := Cmd.bind_eq_ok heq
    obtain ⟨es₁, hl₁⟩ := openImage_listing hL ho hb hd h h₁
    have hu : u32 (s.hdr env).imageId ≠ fwdImageUnused := (h.announced.used h.header.1).hdr hb hd rfl
    obtain ⟨k', fu', hs₁, -⟩ := openImage_ok hL ho hb hd h.lists hu h₁
    rcases openImage_cases hL hb hd with ⟨e, s₂, he, -⟩ | ⟨s₂, k, he, hb₁, hk₁, -⟩
    · rw [h₁] at he
      cases he
    rw [h₁] at he
    cases he
    split at heq
    · -- an image without bytes
      obtain ⟨u, s₂, h₂, heq⟩ := Cmd.bind_eq_ok heq
      have hl₂ := hl₁.same (closeImage_same h₂).1
      rw [Cmd.bind_ok (Cmd.gets_apply _ _)] at heq
      split at heq
      · cases heq
        exact ⟨es₁, hl₂.same ⟨rfl, rfl⟩⟩
      · cases heq
        exact ⟨es₁, hl₂⟩
    · rename_i hempty
      rw [Cmd.bind_ok (Cmd.modify_apply _ _)] at heq
      generalize hs₂ : Session.setCxt s₁ (fun c => { c with digest := [] }) = s₂ at heq
      have hsame : SameTable A s₁ s₂ := by
        rw [← hs₂]
        exact ⟨rfl, rfl⟩
      have hb₂ : Busy env A fu₀.dev s₂ := by
        rw [← hs₂]
        exact hb₁.keep hb₁.grown rfl (by constructor <;> rfl)
      refine ⟨es₁, (hl₁.same hsame).same (receivePiece_same hL ho hb₂ (k := k) ?_ ?_ ?_ heq)⟩
      · rw [← hs₂]
        exact hk₁.keep rfl rfl rfl hk₁.count hk₁.size
      · rw [← hs₂, hs₁]
        exact hw.buffer
      · rw [← hs₂, hs₁]
        intro hf
        refine ⟨hoff hf, ?_⟩
        show 0 < (s.hdr env).imageLength
        exact Nat.pos_of_ne_zero fun hz => hempty ⟨hf, hz⟩
  · rename_i hopen
    obtain ⟨hlt, k, hk⟩ := hw.ongoing hopen
    exact ⟨es, h.same (receivePiece_same hL ho hb hk hw.buffer (fun hf => ⟨hoff hf, hlt⟩) heq)⟩

theorem receiveLoop_listing (hL : Layout env.cfg fu₀ A) (ho : A.OffFwds) :
    ∀ (n : ℕ) {es : List ImageEntry} {s s' : Session}, Working env A fu₀ s → Listing env fu₀ A b hid es s →
      receiveLoop env n s = (.ok (), s') → ∃ es, Listing env fu₀ A b hid es s'
  | 0, es, s, s', _, h, heq => by
    cases heq
    exact ⟨es, h⟩
  | n + 1, es, s, s', hw, h, heq => by
    obtain ⟨go, s₁, h₁, heq⟩ := Cmd.bind_eq_ok heq
    obtain ⟨es₁, hl₁⟩ := receivePass_listing hL ho hw h h₁
    have hpass := (receivePass_passEnd hL).ok hw h₁
    cases go with
    | false =>
      cases heq
      exact ⟨es₁, hl₁⟩
    | true => exact receiveLoop_listing hL ho n hpass hl₁ heq

theorem processImage_listing (hL : Layout env.cfg fu₀ A) (ho : A.OffFwds) (hw : Working env A fu₀ s)
    (h : Listing env fu₀ A b hid es s) (heq : processImage env s = (.ok (), s')) :
    ∃ es, Listing env fu₀ A b hid es s' := by
  obtain ⟨u, s₁, h₁, heq⟩ := Cmd.bind_eq_ok heq
  obtain ⟨es₁, hl₁⟩ := receiveLoop_listing hL ho _ hw h h₁
  cases heq
  refine ⟨es₁, hl₁.same ⟨?_, ?_⟩⟩ <;> dsimp only <;> split <;> rfl

/-! ### The other states -/

/-- An FS1 without bytes has its entry at once. -/
theorem prepareConnect_listing (hL : Layout env.cfg fu₀ A) (hb : Busy env A fu₀.dev s)
    (h : Listing env fu₀ A b hid es s) (heq : prepareConnect env s = (.ok (), s')) :
    ∃ es, Listing env fu₀ A b hid es s' := by
  rw [prepareConnect, Cmd.bind_ok (Cmd.gets_apply _ _), if_neg (by simp [hb.placing.isFirst]),
    Cmd.bind_ok (Cmd.modify_apply _ _), Cmd.bind_ok (Cmd.gets_apply _ _)] at heq
  generalize hs₁ : (s.setCxt fun c => { c with
    imageIndex := nextDownload c.downloadFlag c.imageIndex c.totalImages }) = s₁ at heq
  have hsame : SameTable A s s₁ := by
    rw [← hs₁]
    exact ⟨rfl, rfl⟩
  split at heq
  · rename_i hempty
    obtain ⟨u, s₂, h₂, heq⟩ := Cmd.bind_eq_ok heq
    have hg₁ : Grown A fu₀.dev s₁.fu.dev := by
      rw [← hs₁]
      exact hb.grown
    have ht₁ : s₁.cxt.trialFwdIdx = A.trial := by
      rw [← hs₁]
      exact hb.placing.trial
    have hl₁ := h.same hsame
    obtain ⟨k, fu', rfl, hop, -⟩ := createFs1_ok hL hg₁ ht₁ hl₁.lists hempty.1 h₂
    cases heq
    refine ⟨_, hl₁.add (inSlot_of_ne ?_) (e := imageEntry A s₁.cxt.trialMemStart (s₁.cxt.hdrAt env s₁.cxt.imageIndex)) ?_ ?_⟩
    · rw [imageEntry, truncEntry]
      show u32 (newEntry _ _ _ _).imageId ≠ _
      rw [newEntry_imageId, hempty.1]
      decide
    · simp only [Session.setCxt, Session.freePartitionHdl_dev]
      exact hop.lists
    · simp only [Session.setCxt, Session.freePartitionHdl_cxt]
      rfl
  · cases heq
    exact ⟨es, (h.same hsame).same ⟨rfl, rfl⟩⟩

/-- The images that did not change: none of them is an SBL. -/
theorem duplicateLoop_listing (hL : Layout env.cfg fu₀ A) (ho : A.OffFwds) : ∀ (l : List (ℕ × ImageHdr)) (buf : Bytes)
    (s s' : Session) (es : List ImageEntry), buf.length = 4096 → Grown A fu₀.dev s.fu.dev → s.cxt.trialFwdIdx = A.trial →
    A.mem.start ≤ s.cxt.trialMemStart →
    s.cxt.trialMemStart + copyNeed s.cxt.downloadFlag l ≤ A.mem.start + A.mem.size →
    (∀ p ∈ l, ∃ x ∈ imageHdrs b (ImageSetHdr.decode b).numImages, p.2 = x.adjust) →
    Listing env fu₀ A b hid es s → duplicateLoop l none buf s = (none, s') → ∃ es, Listing env fu₀ A b hid es s'
  | [], buf, s, s', es, _, _, _, _, _, _, hl, heq => by
    cases heq
    exact ⟨es, hl⟩
  | (i, h) :: rest, buf, s, s', es, hb, hg, ht, hlo, hhi, hx, hl, heq => by
    rw [copyNeed, List.map_cons, List.sum_cons] at hhi
    rw [duplicateLoop] at heq
    have hx' : ∀ p ∈ rest, ∃ x ∈ imageHdrs b (ImageSetHdr.decode b).numImages, p.2 = x.adjust :=
      fun p hp => hx p (List.mem_cons_of_mem _ hp)
    by_cases hc : s.cxt.downloadFlag i = false ∧ h.Counted
    swap
    · rw [if_neg hc] at heq
      rw [if_neg hc, Nat.zero_add] at hhi
      exact duplicateLoop_listing hL ho rest buf s s' es hb hg ht hlo hhi hx' hl heq
    rw [if_pos hc] at heq
    simp only [if_pos hc] at hhi
    rcases findPartition_cases s.activeFwd h.imageId s.fu with ⟨e, hfind⟩ | ⟨src, j, en, -, -, -, -, hfind⟩ <;>
      simp only [hfind] at heq
    · cases heq
    rcases hcr : fwUpgradeCreatePartition s.cxt.trialFwdIdx h.imageId h.version s.cxt.trialMemStart h.diskSize
      (s.fu.setHandle src (clientOf s.activeFwd j en)) with ⟨e | dst, fu₂⟩ <;> simp only [hcr] at heq
    · cases heq
    rw [ht] at hcr
    rcases hcopy : copyBlocks src dst (blockOffsets h.diskSize) buf fu₂ with ⟨⟨err, b'⟩, fu₃⟩
    simp only [hcopy] at heq
    have herr : err = none := by
      have := duplicateLoop_none _ _ _ _ _ heq
      rcases err with _ | e
      · rfl
      · simp at this
    subst herr
    have hg₁ : Grown A fu₀.dev (s.fu.setHandle src (clientOf s.activeFwd j en)).dev := hg
    obtain ⟨x, hxm, hxe⟩ := hx _ List.mem_cons_self
    have hxid : h.imageId = x.imageId := by
      rw [show h = x.adjust from hxe, ImageHdr.adjust_imageId]
    have hu : u32 h.imageId ≠ fwdImageUnused := by
      rw [hxid, u32_of_lt (imageHdrs_id_lt hxm)]
      exact hl.header.1 x hxm
    have hled : Ledger env.cfg A { s.cxt.plan env with index := 0 } [] (s.fu.setHandle src (clientOf s.activeFwd j en)).dev.mem
        [] := ledger_nil rfl
    obtain ⟨hbl, hg₃, -, hls₃⟩ := copyImage_ok hL ho hb hg₁ hlo (show s.cxt.trialMemStart + h.diskSize ≤ _ by omega)
      hc.2.2.2 hu hled hl.lists hcr hcopy
    have hmem := hL.sane.data_lt A.mem A.mem_data
    have hroom : u32 (s.cxt.trialMemStart + h.diskSize) = s.cxt.trialMemStart + h.diskSize := u32_of_lt (by omega)
    simp only [Session.setCxt, hroom] at heq
    generalize hs₁ : ({ s with
        fu := (fu₃.freeHandle src).freeHandle dst
        cxt := { s.cxt with trialMemStart := s.cxt.trialMemStart + h.diskSize } } : Session) = s₁ at heq
    have hl₁ : Listing env fu₀ A b hid _ s₁ :=
      hl.add (inSlot_of_ne ?_) (by rw [← hs₁]; exact hls₃) (by rw [← hs₁]; rfl)
    · refine duplicateLoop_listing hL ho rest b' s₁ s' _ hbl ?_ ?_ ?_ ?_ hx' hl₁ heq <;> rw [← hs₁]
      · exact hg₃
      · exact ht
      · exact Nat.le_trans hlo (Nat.le_add_right _ _)
      · rw [← Nat.add_assoc] at hhi
        exact hhi
    · rw [truncEntry]
      show u32 (newEntry _ _ _ _).imageId ≠ _
      rw [newEntry_imageId, hxid, u32_of_lt (imageHdrs_id_lt hxm), ← hxid]
      exact hc.2.2.2

theorem duplicateImages_listing (hL : Layout env.cfg fu₀ A) (ho : A.OffFwds) (hb : Busy env A fu₀.dev s)
    (h : Listing env fu₀ A b hid es s) (heq : duplicateImages env s = (.ok (), s')) :
    ∃ es, Listing env fu₀ A b hid es s' := by
  have hneed := copyNeed_le s.cxt env hb.placing.total
  have hbud := hb.placing.budget
  rw [duplicateImages] at heq
  rcases hd : duplicateLoop ((List.range s.cxt.totalImages).map fun i => (i, s.cxt.hdrAt env i)) none
    ((List.range 4096).map env.heap) s with ⟨_ | e, s₁⟩ <;> simp only [hd] at heq
  swap
  · cases heq
  cases heq
  have hx : ∀ p ∈ (List.range s.cxt.totalImages).map fun i => (i, s.cxt.hdrAt env i),
      ∃ x ∈ imageHdrs b (ImageSetHdr.decode b).numImages, p.2 = x.adjust := by
    intro p hp
    obtain ⟨i, hi, rfl⟩ := List.mem_map.mp hp
    exact h.announced.hdrAt env (List.mem_range.mp hi)
  obtain ⟨es', hl⟩ := duplicateLoop_listing hL ho _ _ _ _ _ (by rw [List.length_map, List.length_range]) hb.grown
    hb.placing.trial hb.placing.start_le (by omega) hx h hd
  exact ⟨es', hl.same ⟨rfl, rfl⟩⟩

/-- The active FS1 goes to the active FS2. -/
theorem duplicateFs_same (hL : Layout env.cfg fu₀ A) (ho : A.OffFwds) (hg : Grown A fu₀.dev s.fu.dev)
    (heq : duplicateFs s = (.ok (), s')) : SameTable A s s' := by
  obtain ⟨hc, -, hfu | ⟨-, c, hold, hns, -, -, hin⟩⟩ := duplicateFs_ok hL hg heq
  · exact ⟨by rw [hfu], by rw [hc]; rfl⟩
  · exact ⟨hin.fwd (hold.off ho) hg.1, by rw [hc]; rfl⟩

end

/-! ### Every state, every run -/

/-- The states in which the books depend on the state. -/
def bookStates : List State := [.notStart, .getTrialInfo, .eraseFwd, .eraseSecondFs, .prepareFs]

/-- What the trial FWD lists, by the state of the session. -/
structure Listed (env : Env) (fu₀ : Fu) (A : Area) (s : Session) : Prop where
  before : s.cxt.isFirst = true → s.cxt.state ∈ [State.notStart, .getTrialInfo, .eraseFwd] →
    s.cxt.hiddenImagesCount = 0
  early : s.cxt.isFirst = true → s.cxt.state ∉ [State.notStart, .getTrialInfo, .eraseFwd] →
    ∃ hid, EarlyBook env.cfg A (s.cxt.state ≠ .eraseSecondFs) hid s.fu.dev.mem ∧
      Hides env.cfg (fu₀.dev.mem.fwd A.active) hid s.cxt
  after : s.cxt.isFirst = false → ∃ b hid es, Listing env fu₀ A b hid es s

section

variable {env : Env} {fu₀ : Fu} {A : Area} {s s' : Session} {b : Bytes} {hid es : List ImageEntry}

theorem Listing.listed (h : Listing env fu₀ A b hid es s) : Listed env fu₀ A s := by
  have hf : s.cxt.isFirst = false := h.announced.isFirst
  refine ⟨fun hc => ?_, fun hc => ?_, fun _ => ⟨b, hid, es, h⟩⟩
  all_goals
    rw [hf] at hc
    cases hc

/-- The same state of another session, with the same device and header. -/
theorem Listed.congr (h : Listed env fu₀ A s) (hd : s'.fu.dev = s.fu.dev) (hh : s'.cxt.head = s.cxt.head)
    (hst : s'.cxt.state = s.cxt.state) : Listed env fu₀ A s' := by
  have hf : s'.cxt.isFirst = s.cxt.isFirst := congrArg Head.isFirst hh
  have hc : s'.cxt.hiddenImagesCount = s.cxt.hiddenImagesCount := congrArg Head.hidden hh
  refine ⟨fun hf' hs => ?_, fun hf' hs => ?_, fun hf' => ?_⟩
  · rw [hc]
    exact h.before (hf ▸ hf') (hst ▸ hs)
  · obtain ⟨hid, hb, hk⟩ := h.early (hf ▸ hf') (hst ▸ hs)
    refine ⟨hid, ?_, hc.trans hk.count, ?_, ?_⟩
    · rw [hd, hst]
      exact hb
    · rw [hst]
      exact hk.before
    · rw [hst]
      exact hk.taken
  · obtain ⟨b, hid, es, hl⟩ := h.after (hf ▸ hf')
    exact ⟨b, hid, es, hl.same (.of_dev hd hh)⟩

/-- A step between states that the books do not depend on. -/
theorem Listed.goOn (h : Listed env fu₀ A s) (hd : s'.fu.dev = s.fu.dev) (hh : s'.cxt.head = s.cxt.head)
    (hs : s.cxt.state ∉ bookStates) (hs' : s'.cxt.state ∉ bookStates) : Listed env fu₀ A s' := by
  have hf : s'.cxt.isFirst = s.cxt.isFirst := congrArg Head.isFirst hh
  simp only [bookStates, List.mem_cons, List.not_mem_nil, or_false, not_or] at hs hs'
  refine ⟨fun _ hc => ?_, fun hf' _ => ?_, fun hf' => ?_⟩
  · simp [hs'] at hc
  · obtain ⟨hid, hb, hk⟩ := h.early (hf ▸ hf') (by simp [hs])
    refine ⟨hid, ?_, hk.later (by simp [hs]) (congrArg Head.hidden hh) hs'.2.2.2.1 hs'.2.2.2.2⟩
    rw [hd]
    exact ⟨hb.lists, hb.hidden, fun hn _ => hb.blank hn hs.2.2.2.1⟩
  · obtain ⟨b, hid, es, hl⟩ := h.after (hf ▸ hf')
    exact ⟨b, hid, es, hl.same (.of_dev hd hh)⟩

/-- The books of a session that was not resumed. -/
theorem Booked.listed (h : Booked env fu₀ A (fun _ => SblHeader) s) (hi : Inv env A fu₀ s) : Listed env fu₀ A s := by
  have hbusy : s.cxt.isFirst = false → s.cxt.state ∉ [State.duplicateFs, .finish] →
      (s.cxt.imageWrtLength ≠ 0 → s.cxt.state ∉ [State.duplicateImages, .duplicateFs, .finish] → Downloading s.cxt) →
      Listed env fu₀ A s := by
    intro hf hs hd
    obtain ⟨b, hid, hb, ha, hacc⟩ := h.busy hf hs
    obtain ⟨es, hl⟩ := hacc.listing hb ha fun hw => hd hw (by
      cases hacc with
      | idle items hH hw' => exact absurd hw' hw
      | filling items k hH hw' hs' => exact hs')
    exact hl.listed
  cases hi with
  | start hs hu =>
    refine ⟨h.before, fun _ hc => ?_, fun hf => ?_⟩
    · rcases hs with hs | hs <;> simp [hs] at hc
    · rw [hu.isFirst] at hf
      cases hf
  | chosen hs hL hdev hf =>
    refine ⟨h.before, fun _ hc => ?_, fun hf' => ?_⟩
    · simp [hs] at hc
    · rw [hf.isFirst] at hf'
      cases hf'
  | early hs hL he =>
    refine ⟨h.before, fun hf _ => h.early hf hs, fun hf => ?_⟩
    rw [he.fresh.isFirst] at hf
    cases hf
  | between hs hL hb hw =>
    exact hbusy hb.placing.isFirst (by rcases hs with hs | hs <;> simp [hs]) fun hne => absurd hw hne
  | image hs hL hb hd =>
    exact hbusy hb.placing.isFirst (by rcases hs with hs | hs | hs <;> simp [hs]) fun _ _ => hd
  | copies hs hL hb ht => exact hbusy hb.placing.isFirst (by simp [hs]) fun _ hc => absurd (by simp [hs]) hc
  | placed hs hL hg htr hv ht hf =>
    obtain ⟨b, hid, items, copies, hb, ha, hpl⟩ := h.placed (by rcases hs with hs | hs <;> simp [hs])
    obtain ⟨es, hl⟩ := hpl.listing hb ha
    exact hl.listed

/-- Before the header the two say the same. -/
theorem Listed.booked (h : Listed env fu₀ A s) (hf : s.cxt.isFirst = true)
    (hs : s.cxt.state ∉ [State.duplicateFs, .finish]) : Booked env fu₀ A (fun _ => SblHeader) s := by
  refine ⟨h.before, fun hf hs' => h.early hf ?_, fun hc => ?_, fun hc => absurd hc hs⟩
  · simp only [List.mem_cons, List.not_mem_nil, or_false] at hs'
    rcases hs' with hs' | hs' | hs' | hs' | hs' | hs' <;> simp [hs']
  · rw [hf] at hc
    cases hc

/-- Every state of the machine of a session that was not resumed. -/
theorem sessionSwitch_listed (hA : A.SamePlaces (sessionArea env.cfg fu₀)) (hS : A.Sane) (ho : A.OffFwds)
    (h : Inv env A fu₀ s) (hok : s.HeaderOk env A) (hP : s.HeaderIs env SblHeader) (hl : Listed env fu₀ A s) {go : Bool}
    (heq : sessionSwitch env s = (.ok go, s')) : Listed env fu₀ A s' := by
  have hfirst : s.cxt.isFirst = true → s.cxt.state ∉ [State.duplicateFs, .finish] → Listed env fu₀ A s' := by
    intro hf hs
    have hk := sessionSwitch_keeps hA hS h hok
    rw [heq] at hk
    exact (sessionSwitch_booked ho (fun _ b hb => hb.1) h (hl.booked hf hs) hP heq).listed hk
  cases h with
  | start hs hu => exact hfirst hu.isFirst (by rcases hs with hs | hs <;> simp [hs])
  | chosen hs hL hdev hf => exact hfirst hf.isFirst (by simp [hs])
  | early hs hL he =>
    refine hfirst he.fresh.isFirst fun hc => ?_
    simp only [List.mem_cons, List.not_mem_nil, or_false] at hc
    rcases hc with hc | hc <;> simp [hc] at hs
  | between hs hL hb hw =>
    obtain ⟨b, hid, es, hl⟩ := hl.after hb.placing.isFirst
    rcases hs with hs | hs <;> simp only [sessionSwitch, hs] at heq
    · obtain ⟨es', hl'⟩ := prepareConnect_listing hL hb hl (goOn_ok heq)
      exact hl'.listed
    · cases goOn_ok heq
      exact Listing.listed (hl.same ⟨rfl, rfl⟩)
  | image hs hL hb hd hon hn =>
    obtain ⟨b, hid, es, hl⟩ := hl.after hb.placing.isFirst
    rcases hs with hs | hs | hs <;> simp only [sessionSwitch, hs] at heq
    · have heq := goOn_ok heq
      obtain ⟨sc, ⟨e, hc⟩ | hc⟩ := connectServer_cases s <;> rw [hc] at heq <;> cases heq
      exact Listing.listed (hl.same ⟨rfl, rfl⟩)
    · obtain ⟨sc, ⟨r, hc⟩ | ⟨d, -, -, hc⟩⟩ := receiveData_cases s <;> rw [hc] at heq <;>
        obtain ⟨-, rfl⟩ := Prod.mk.inj heq
      · exact Listing.listed (hl.same ⟨rfl, rfl⟩)
      · exact Listing.listed (hl.same ⟨rfl, rfl⟩)
    · obtain ⟨es', hl'⟩ := processImage_listing hL ho ⟨hb, hd, hon, hs, hn hs⟩ hl (goOn_ok heq)
      exact hl'.listed
  | copies hs hL hb ht =>
    obtain ⟨b, hid, es, hl⟩ := hl.after hb.placing.isFirst
    simp only [sessionSwitch, hs] at heq
    obtain ⟨es', hl'⟩ := duplicateImages_listing hL ho hb hl (goOn_ok heq)
    exact hl'.listed
  | placed hs hL hg htr hv ht hf =>
    obtain ⟨b, hid, es, hl'⟩ := hl.after hf
    rcases hs with hs | hs <;> simp only [sessionSwitch, hs] at heq
    · exact (hl'.same (duplicateFs_same hL ho hg (goOn_ok heq))).listed
    · cases heq
      exact hl

/-- And of one that was. -/
theorem Tracked.Going.switch_listed (hA : A.SamePlaces (sessionArea env.cfg fu₀)) (hS : A.Sane) (ho : A.OffFwds)
    {t : Tracked} (h : t.Going env A fu₀) (hok : t.session.HeaderOk env A) (hP : t.session.HeaderIs env SblHeader)
    (hl : Listed env fu₀ A t.session) {go : Bool} (heq : sessionSwitch env t.session = (.ok go, s')) :
    Listed env fu₀ A s' := by
  rcases h with h | h
  · exact sessionSwitch_listed hA hS ho h hok hP hl heq
  have hst : t.session.cxt.state = .resumeService ∨ t.session.cxt.state = .resumeServer := by
    cases h with
    | early hs => exact hs
    | waiting hs => exact .inl hs
    | image hs => exact .inr hs
    | downloaded hs => exact .inl hs
  rcases hst with hs | hs <;> simp only [sessionSwitch, hs] at heq <;> have heq := goOn_ok heq
  · rcases resumeService_cases env t.session with ⟨e, s₁, hc, -⟩ | ⟨k, i, en, d, -, hc⟩ <;> rw [hc] at heq <;> cases heq
    exact hl.goOn rfl rfl (by simp [hs, bookStates]) (by simp [bookStates])
  · obtain ⟨sc, ⟨e, hc⟩ | hc⟩ := resumeServer_cases t.session <;> rw [hc] at heq <;> cases heq
    exact hl.goOn rfl rfl (by simp [hs, bookStates]) (by simp [bookStates])

/-- Being resumed. -/
theorem Listed.resume (h : Listed env fu₀ A s) (script : Script) : Listed env fu₀ A (s.resume script) := by
  rcases s.resume_cases script with heq | ⟨-, -, heq⟩ <;> rw [heq]
  · exact h
  by_cases hs : s.cxt.state ∈ bookStates
  · refine h.congr rfl rfl ?_
    simp only [bookStates, List.mem_cons, List.not_mem_nil, or_false] at hs
    rcases hs with hs | hs | hs | hs | hs <;> rw [hs] <;> rfl
  · refine h.goOn rfl rfl hs ?_
    show s.cxt.state.resumed ∉ bookStates
    rw [State.resumed]
    split
    · simp [bookStates]
    · exact hs

/-- What the trial FWD lists at any time; of a session that ended, as long as it can be resumed. -/
def Session.RunListed (env : Env) (fu₀ : Fu) (A : Area) (s : Session) : Prop :=
  match s.phase with
  | .process => Listed env fu₀ A s
  | .finalize (.ok _) => Listed env fu₀ A s
  | .finalize (.error _) => True
  | .done _ => s.cxt.sessionStatus = .suspend → Listed env fu₀ A s

theorem Listed.run (h : Listed env fu₀ A s) : s.RunListed env fu₀ A := by
  rw [Session.RunListed]
  split
  · exact h
  · exact h
  · trivial
  · exact fun _ => h

theorem Session.RunListed.resume (h : s.RunListed env fu₀ A) (script : Script) : (s.resume script).RunListed env fu₀ A := by
  rcases s.resume_cases script with heq | ⟨⟨r, hph⟩, hs, -⟩
  · rw [heq]
    exact h
  · rw [Session.RunListed, hph] at h
    exact ((h hs).resume script).run

/-- A request that arrives. -/
theorem Listed.poll (h : Listed env fu₀ A s) : Listed env fu₀ A s.poll := by
  obtain ⟨sc, st, hp⟩ := s.poll_eq
  refine h.congr (congrArg Fu.dev s.poll_fu) ?_ ?_ <;> rw [hp]
  rfl

/-- The end of `fw_upgrade_session_finalize`. -/
theorem leave_listed {r : Except FuStatus Unit} (h : s.cxt.sessionStatus = .suspend → Listed env fu₀ A s) :
    (s.leave r).RunListed env fu₀ A := by
  rw [Session.leave]
  split
  · refine Listed.run ((h ‹_›).congr s.freePartitionHdl_dev ?_ ?_)
    · show s.freePartitionHdl.cxt.head = _
      rw [Session.freePartitionHdl_cxt]
      rfl
    · show s.freePartitionHdl.cxt.state = _
      rw [Session.freePartitionHdl_cxt]
  · exact fun hc => by cases hc

theorem Tracked.Contains.finalize_listed {t : Tracked} (hc : t.Contains env A) (hl : t.session.RunListed env fu₀ A)
    {ret : Except FuStatus Unit} (hph : t.session.phase = .finalize ret) :
    (t.session.poll.finalize ret).RunListed env fu₀ A := by
  rw [Session.finalize]
  rcases hf : t.session.poll.finalRet ret with e | u
  · refine leave_listed fun hs => ?_
    rcases ret with e' | u
    · exact absurd hs (hc.failed e' hph)
    · rw [Session.RunListed, hph] at hl
      exact hl.poll.poll
  · obtain ⟨-, hfin, hok⟩ := finalRet_ok hf
    obtain ⟨sc, st, hp⟩ := t.session.poll_eq
    simp only
    split
    · exact fun hc => by cases hc
    · refine leave_listed fun hs => ?_
      rw [Session.validate_poll_cxt] at hs
      refine absurd hs (hc.finished () (hok ▸ hph) ?_)
      rw [hp] at hfin
      exact hfin

/-- A pass of the worker. -/
theorem Tracked.RunInv.step_listed (hA : A.SamePlaces (sessionArea env.cfg fu₀)) (hS : A.Sane) (ho : A.OffFwds)
    {t : Tracked} (h : t.RunInv env A fu₀) (hc : t.Contains env A) (hP : t.session.HeaderIs env SblHeader)
    (hl : t.session.RunListed env fu₀ A) : (t.session.step env).RunListed env fu₀ A := by
  obtain ⟨sc, st, hp⟩ := t.session.poll_eq
  rw [Session.step]
  split
  · rename_i hph
    rw [Session.RunListed, hph] at hl
    have hk : Listed env fu₀ A t.session.poll := hl.poll
    simp only
    split
    · have hB : ∀ go s', sessionSwitch env t.session.poll = (.ok go, s') → Listed env fu₀ A s' := fun go s' heq =>
        (h.polled (.inl hph)).switch_listed hA hS ho (by rw [hp]; exact hc.header) (by rw [hp]; exact hP) hk heq
      rcases hr : sessionSwitch env t.session.poll with ⟨e | _ | _, s'⟩
      · exact trivial
      · exact Listed.run ((hB false s' hr).congr rfl rfl rfl)
      · exact (hB true s' hr).run
    · exact Listed.run (hk.congr rfl rfl rfl)
  · exact hc.finalize_listed hl ‹_›
  · exact hl

end

end Qcc730.Upgrade
