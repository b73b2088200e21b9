import Qcc730.Upgrade.Writing

/-! What a session has placed, image by image.

    After the header the trial FWD lists the partitions taken over from the active FWD and then one entry for
    each image downloaded so far, in order. The ledger says so, and that each of these images is in its
    partition byte by byte: an image goes behind the ones before it, so writing it leaves them alone. Two
    kinds of image have a place of their own that a second one of the kind would write over, the SBL and FS1;
    FS1 also needs the active FS2 to be blank, which is erased only once. -/

namespace Qcc730.Upgrade
open Lib Flash Sbl

/-- The partitions lie behind the block of the trial FWD. -/
theorem Area.OffFwds.above {A : Area} (ho : A.OffFwds) (ht : A.trial < fwUpgradeMaxFwd) {q : Range} (hq : q ∈ A.data)
    {x : ℕ} (hx : x ∈ q) : A.trial * 4096 + 4096 ≤ x := by
  have hoff := ho q hq
  simp only [fwUpgradeMaxFwd] at ht hoff
  rw [Range.mem_def] at hx
  omega

theorem Area.OffFwds.not_trial {A : Area} (ho : A.OffFwds) (ht : A.trial < fwUpgradeMaxFwd) {q : Range} (hq : q ∈ A.data)
    {x : ℕ} (hx : x ∈ q) : x ∉ A.trialBlock := by
  have hle := ho.above ht hq hx
  rw [Area.trialBlock, Range.mem_mk]
  exact fun hb => Nat.not_lt.mpr hle hb.2

theorem Area.mem_data (A : Area) : A.mem ∈ A.data := List.mem_cons_self

theorem Area.fs2_data (A : Area) : A.fs2 ∈ A.data := List.mem_cons_of_mem _ List.mem_cons_self

/-! ### Items -/

/-- What the context says about the images. -/
structure Plan where
  hdr : ℕ → ImageHdr
  total : ℕ
  index : ℕ
  memStart : ℕ
  flag : ℕ → Bool
  format : ℕ
  flags : ℕ

def Cxt.plan (env : Env) (c : Cxt) : Plan :=
  ⟨c.hdrAt env, c.totalImages, c.imageIndex, c.trialMemStart, c.downloadFlag, c.format, c.flags⟩

/-- What stays as it is once the header is accepted. -/
structure Head where
  imageHdr : List ImageHdr
  total : ℕ
  hidden : ℕ
  format : ℕ
  flags : ℕ
  flag : ℕ → Bool
  sblIdx : ℕ
  isFirst : Bool

def Cxt.head (c : Cxt) : Head :=
  ⟨c.imageHdr, c.totalImages, c.hiddenImagesCount, c.format, c.flags, c.downloadFlag, c.trialSblIdx, c.isFirst⟩

/-- An image that has been placed: its number in the header, where the trial memory began then, its bytes. -/
structure Item where
  index : ℕ
  start : ℕ
  data : Bytes

/-- The partition of the item. -/
def Plan.place (p : Plan) (A : Area) (it : Item) : Spot := imagePlace A it.start (p.hdr it.index)

/-- The entry of the item in the trial FWD. -/
def Plan.entry (p : Plan) (A : Area) (it : Item) : ImageEntry := imageEntry A it.start (p.hdr it.index)

/-- The partition of image `i` is blank when it is opened: if it is FS1, that is the active FS2. -/
def Plan.Clean (p : Plan) (cfg : Config) (A : Area) (i : ℕ) : Prop :=
  (p.hdr i).imageId = fs1ImgId → cfg.noFs = false ∧ 0 < A.fs2.size ∧ A.mem.Disj A.fs2 ∧
    ∀ j < i, (p.hdr j).imageId = fs1ImgId → (p.hdr j).imageLength = 0

/-- Nothing is written over image `i`: if it is FS1 or the SBL, no later image has its place, and the active FS1
    is not copied over it. -/
def Plan.Kept (p : Plan) (A : Area) (i : ℕ) : Prop :=
  ((p.hdr i).imageId = fs1ImgId ∨ (p.hdr i).imageId = sblImgId →
    ∀ j, i < j → j < p.total → (p.hdr j).imageId = (p.hdr i).imageId → (p.hdr j).imageLength = 0) ∧
  ((p.hdr i).imageId = fs1ImgId → p.flags / flagDuplicateActiveFs % 2 ≠ 1) ∧
  ((p.hdr i).imageId ≠ sblImgId → A.mem.Disj A.fs2)

/-- The active FS2 is blank, as long as no FS1 image with bytes has been placed. -/
def FsBlank (cfg : Config) (A : Area) (p : Plan) (m : Mem) (items : List Item) : Prop :=
  cfg.noFs = false → A.mem.Disj A.fs2 → (∀ it ∈ items, (p.hdr it.index).imageId = fs1ImgId → it.data = []) →
    ∀ x ∈ A.fs2, m.flash x = 0xFF

/-- The images placed so far. -/
structure Ledger (cfg : Config) (A : Area) (p : Plan) (v : List (ℕ × Bytes)) (m : Mem) (items : List Item) : Prop where
  inOrder : p.format ≠ formatPartialUpgrade → items.map Item.index = List.range p.index
  increasing : (items.map Item.index).Pairwise (· < ·)
  complete : ∀ i < p.index, i < p.total → p.flag i = true → ∃ it ∈ items, it.index = i
  flagged : ∀ it ∈ items, it.index < p.total → p.flag it.index = true
  below : ∀ it ∈ items, it.index < p.index
  known : ∀ it ∈ items, p.total ≤ it.index → (p.hdr it.index).imageId = fs1ImgId ∧ (p.hdr it.index).imageLength = 0
  start : ∀ it ∈ items, A.mem.start ≤ it.start ∧ it.start + (p.hdr it.index).taken ≤ p.memStart
  length : ∀ it ∈ items, it.data.length = (p.hdr it.index).imageLength
  fits : ∀ it ∈ items, it.data.length ≤ (p.place A it).imgSize
  verified : ∀ it ∈ items, it.data ≠ [] → (it.index, it.data) ∈ v
  stored : ∀ it ∈ items, p.Clean cfg A it.index → p.Kept A it.index → Written m (p.place A it) it.data

section

variable {cfg : Config} {A : Area} {p : Plan} {v : List (ℕ × Bytes)} {m m' : Mem} {items : List Item}

theorem ledger_nil (hi : p.index = 0) : Ledger cfg A p v m [] := by
  refine ⟨?_, .nil, ?_, ?_, ?_, ?_, ?_, ?_, ?_, ?_, ?_⟩
  · intro _
    rw [hi]
    rfl
  · intro i h
    omega
  all_goals
    intro it h
    exact absurd h List.not_mem_nil

/-- Where the bytes of an item in flash lie. -/
theorem place_flash {A : Area} {start : ℕ} {h : ImageHdr} (hid : h.imageId ≠ sblImgId) :
    (h.imageId = fs1ImgId ∧ (imagePlace A start h).imgStart = A.fs2.start ∧ (imagePlace A start h).imgSize = A.fs2.size) ∨
    (h.imageId ≠ fs1ImgId ∧ (imagePlace A start h).imgStart = start ∧ (imagePlace A start h).imgSize = h.taken) := by
  by_cases hfs : h.imageId = fs1ImgId
  · rw [imagePlace, if_pos hfs]
    exact .inl ⟨hfs, rfl, rfl⟩
  · rw [imagePlace, if_neg hfs, if_neg hid, ImageHdr.taken, if_neg (by rintro (h | h) <;> contradiction)]
    exact .inr ⟨hfs, rfl, rfl⟩

/-- The ledger is about the trial memory up to where it is free, the active FS2 and the SBL slot. -/
theorem Ledger.frame (h : Ledger cfg A p v m items)
    (hmem : A.mem.Disj A.fs2 → ∀ x, A.mem.start ≤ x → x < p.memStart → m'.flash x = m.flash x)
    (hfs : ∀ i < p.index, (p.hdr i).imageId = fs1ImgId → p.Kept A i → ∀ x ∈ A.fs2, m'.flash x = m.flash x)
    (hsbl : ∀ i < p.index, (p.hdr i).imageId = sblImgId → p.Kept A i → ∀ x, m'.rram x = m.rram x) :
    Ledger cfg A p v m' items := by
  refine ⟨h.inOrder, h.increasing, h.complete, h.flagged, h.below, h.known, h.start, h.length, h.fits, h.verified,
    fun it hit hcl hk => ?_⟩
  have hpid : (p.place A it).imgId = (p.hdr it.index).imageId := imagePlace_imgId _ _ _
  refine (h.stored it hit hcl hk).congr ?_ ?_
  · intro hid x hx hx'
    rw [hpid] at hid
    have hfit := h.fits it hit
    have hst := h.start it hit
    rcases @place_flash A it.start _ hid with ⟨hf, h₁, h₂⟩ | ⟨hf, h₁, h₂⟩
    · refine hfs it.index (h.below it hit) hf hk x ?_
      rw [Plan.place] at hx hx' hfit
      rw [Range.mem_def]
      omega
    · rw [Plan.place] at hx hx' hfit
      exact hmem (hk.2.2 hid) x (by omega) (by omega)
  · intro hid x _ _
    rw [hpid] at hid
    exact hsbl it.index (h.below it hit) hid hk x

/-- Changes of the trial FWD alone. -/
theorem Ledger.table (h : Ledger cfg A p v m items) (ho : A.OffFwds) (ht : A.trial < fwUpgradeMaxFwd)
    (hend : p.memStart ≤ A.mem.start + A.mem.size) (hm : OnlyTable A m m') : Ledger cfg A p v m' items := by
  refine h.frame ?_ ?_ ?_
  · intro _ x hx hx'
    exact hm.flash x (ho.not_trial ht A.mem_data (Range.mem_def.mpr (by omega)))
  · intro _ _ _ _ x hx
    exact hm.flash x (ho.not_trial ht A.fs2_data hx)
  · intro _ _ _ _ x
    rw [hm.rram]

/-- Changes of the trial memory that is free. -/
theorem Ledger.above (h : Ledger cfg A p v m items) (ho : A.OffFwds) (ht : A.trial < fwUpgradeMaxFwd)
    (hlo : A.mem.start ≤ p.memStart) {c : Spot} (hid : c.imgId ≠ sblImgId) (hc : c.imgStart = p.memStart)
    (hend : p.memStart + c.imgSize ≤ A.mem.start + A.mem.size) (hm : OnlyImage A c m m') : Ledger cfg A p v m' items := by
  refine h.frame ?_ ?_ ?_
  · intro _ x hx hx'
    refine hm.flash x (ho.not_trial ht A.mem_data (Range.mem_def.mpr (by omega))) (.inr ?_)
    rw [Range.mem_mk]
    omega
  · intro i _ hfs hk x hx
    refine hm.flash x (ho.not_trial ht A.fs2_data hx) (.inr fun hxm => ?_)
    rw [Range.mem_mk] at hxm
    exact hk.2.2 (by rw [hfs]; decide) x (Range.mem_def.mpr (by omega)) hx
  · intro _ _ _ _ x
    exact hm.rram x (.inl hid)

/-- Changes in the partition of the current image. -/
theorem Ledger.image (h : Ledger cfg A p v m items) (ho : A.OffFwds) (ht : A.trial < fwUpgradeMaxFwd)
    (hlo : A.mem.start ≤ p.memStart) (hend : p.memStart + (p.hdr p.index).taken ≤ A.mem.start + A.mem.size)
    (hi : (p.hdr p.index).imageId = fs1ImgId ∨ (p.hdr p.index).imageId = sblImgId →
      p.index < p.total ∧ (p.hdr p.index).imageLength ≠ 0)
    (hm : OnlyImage A (imagePlace A p.memStart (p.hdr p.index)) m m') : Ledger cfg A p v m' items := by
  have hpid : (imagePlace A p.memStart (p.hdr p.index)).imgId = (p.hdr p.index).imageId := imagePlace_imgId _ _ _
  have hlater : ∀ i < p.index, (p.hdr i).imageId = fs1ImgId ∨ (p.hdr i).imageId = sblImgId → p.Kept A i →
      (p.hdr p.index).imageId ≠ (p.hdr i).imageId := by
    intro i hlt hown hk heq
    obtain ⟨htot, hne⟩ := hi (heq ▸ hown)
    exact hne (hk.1 hown _ hlt htot heq)
  by_cases hid : (p.hdr p.index).imageId = sblImgId
  · refine h.frame ?_ ?_ ?_
    · intro _ x hx hx'
      exact hm.flash x (ho.not_trial ht A.mem_data (Range.mem_def.mpr (by omega))) (.inl (hpid.trans hid))
    · intro _ _ _ _ x hx
      exact hm.flash x (ho.not_trial ht A.fs2_data hx) (.inl (hpid.trans hid))
    · intro i hlt hs hk x
      exact absurd (hid.trans hs.symm) (hlater i hlt (.inr hs) hk)
  rcases @place_flash A p.memStart _ hid with ⟨hf, h₁, h₂⟩ | ⟨-, h₁, h₂⟩
  · refine h.frame ?_ ?_ ?_
    · intro hd x hx hx'
      have hxm : x ∈ A.mem := Range.mem_def.mpr (by omega)
      refine hm.flash x (ho.not_trial ht A.mem_data hxm) (.inr ?_)
      rw [h₁, h₂]
      exact hd x hxm
    · intro i hlt hs hk x _
      exact absurd (hf.trans hs.symm) (hlater i hlt (.inl hs) hk)
    · intro _ _ _ _ x
      exact hm.rram x (.inl (by rw [hpid]; exact hid))
  · exact h.above ho ht hlo (by rw [hpid]; exact hid) h₁ (by rw [h₂]; exact hend) hm

/-- The blank FS2, where FS1 is not the image that is written. -/
theorem FsBlank.image (h : FsBlank cfg A p m items) (ho : A.OffFwds) (ht : A.trial < fwUpgradeMaxFwd)
    (hlo : A.mem.start ≤ p.memStart) (hend : p.memStart + (p.hdr p.index).taken ≤ A.mem.start + A.mem.size)
    (hne : (p.hdr p.index).imageId ≠ fs1ImgId)
    (hm : OnlyImage A (imagePlace A p.memStart (p.hdr p.index)) m m') : FsBlank cfg A p m' items := by
  intro hn hd hit x hx
  rw [← h hn hd hit x hx]
  refine hm.flash x (ho.not_trial ht A.fs2_data hx) ?_
  · by_cases hid : (p.hdr p.index).imageId = sblImgId
    · exact .inl ((imagePlace_imgId _ _ _).trans hid)
    · right
      rcases @place_flash A p.memStart _ hid with ⟨hf, -, -⟩ | ⟨hf, h₁, h₂⟩
      · exact absurd hf hne
      · rw [h₁, h₂, Range.mem_mk]
        exact fun hxm => hd x ((Range.mem_def).mpr (by omega)) hx

theorem FsBlank.table (h : FsBlank cfg A p m items) (ho : A.OffFwds) (ht : A.trial < fwUpgradeMaxFwd)
    (hm : OnlyTable A m m') : FsBlank cfg A p m' items := by
  intro hn hd hit x hx
  rw [← h hn hd hit x hx]
  exact hm.flash x (ho.not_trial ht A.fs2_data hx)

/-- One more image. -/
theorem Ledger.add (h : Ledger cfg A p v m items) {d : Bytes} {v' : List (ℕ × Bytes)}
    (hkn : p.total ≤ p.index → (p.hdr p.index).imageId = fs1ImgId ∧ (p.hdr p.index).imageLength = 0)
    (hfl : p.index < p.total → p.flag p.index = true)
    (hlo : A.mem.start ≤ p.memStart) (hlen : d.length = (p.hdr p.index).imageLength)
    (hfit : d.length ≤ (imagePlace A p.memStart (p.hdr p.index)).imgSize) (hv : ∀ x ∈ v, x ∈ v')
    (hd : d ≠ [] → (p.index, d) ∈ v')
    (hw : p.Clean cfg A p.index → p.Kept A p.index → Written m (imagePlace A p.memStart (p.hdr p.index)) d) :
    Ledger cfg A { p with index := p.index + 1, memStart := p.memStart + (p.hdr p.index).taken } v' m
      (items ++ [⟨p.index, p.memStart, d⟩]) := by
  refine ⟨?_, ?_, ?_, ?_, ?_, ?_, ?_, ?_, ?_, ?_, ?_⟩
  · intro hf
    rw [List.map_append, h.inOrder hf, List.range_succ]
    rfl
  · rw [List.map_append, List.pairwise_append]
    refine ⟨h.increasing, List.pairwise_singleton _ _, fun x hx y hy => ?_⟩
    obtain ⟨it, hit, rfl⟩ := List.mem_map.mp hx
    rw [List.mem_singleton.mp hy]
    exact h.below it hit
  · intro i hi ht hfl
    rcases Nat.lt_succ_iff_lt_or_eq.mp hi with hlt | rfl
    · obtain ⟨it, hit, rfl⟩ := h.complete i hlt ht hfl
      exact ⟨it, List.mem_append_left _ hit, rfl⟩
    · exact ⟨_, List.mem_append_right _ (List.mem_singleton_self _), rfl⟩
  all_goals
    intro it hit
    rcases List.mem_append.mp hit with hit | hit
    swap
    · rw [List.mem_singleton] at hit
      subst hit
      first
        | exact hfl
        | exact Nat.lt_succ_self _
        | exact hkn
        | exact ⟨hlo, Nat.le_refl _⟩
        | exact hlen
        | exact hfit
        | exact hd
        | exact hw
  · exact h.flagged it hit
  · exact Nat.lt_succ_of_lt (h.below it hit)
  · exact h.known it hit
  · exact ⟨(h.start it hit).1, (h.start it hit).2.trans (Nat.le_add_right _ _)⟩
  · exact h.length it hit
  · exact h.fits it hit
  · exact fun hne => hv _ (h.verified it hit hne)
  · exact h.stored it hit

/-- Images that are not downloaded are passed over. -/
theorem Ledger.skip (h : Ledger cfg A p v m items) {i : ℕ} (hi : p.index ≤ i)
    (hall : p.format ≠ formatPartialUpgrade → i = p.index)
    (hs : ∀ j, p.index ≤ j → j < i → j < p.total → p.flag j = false) : Ledger cfg A { p with index := i } v m items := by
  refine ⟨?_, h.increasing, ?_, h.flagged, fun it hit => Nat.lt_of_lt_of_le (h.below it hit) hi, h.known, h.start,
    h.length, h.fits, h.verified, h.stored⟩
  · intro hf
    rw [h.inOrder hf]
    exact congrArg List.range (hall hf).symm
  · intro j hj ht hfl
    by_cases hlt : j < p.index
    · exact h.complete j hlt ht hfl
    · have hfl' : p.flag j = true := hfl
      rw [hs j (by omega) hj ht] at hfl'
      cases hfl'

end

/-! ### A session that receives images -/

/-- The current image. -/
abbrev Session.hdr (env : Env) (s : Session) : ImageHdr := s.cxt.hdrAt env s.cxt.imageIndex

/-- The partition of the current image. -/
abbrev Session.place (env : Env) (A : Area) (s : Session) : Spot := imagePlace A s.cxt.trialMemStart (s.hdr env)

/-- No image is open. -/
structure Idle (env : Env) (A : Area) (sig : Front) (hid : List ImageEntry) (items : List Item) (s : Session) : Prop where
  ledger : Ledger env.cfg A (s.cxt.plan env) s.verified s.fu.dev.mem items
  lists : Lists (s.fu.dev.mem.fwd A.trial) sig (hid ++ items.map ((s.cxt.plan env).entry A))
  blank : FsBlank env.cfg A (s.cxt.plan env) s.fu.dev.mem items
  room : s.cxt.trialMemStart ≤ A.mem.start + A.mem.size

/-- The current image is open with handle `k` and holds what has been received of it. -/
structure Filling (env : Env) (A : Area) (sig : Front) (hid : List ImageEntry) (items : List Item) (s : Session) (k : ℕ) :
    Prop where
  ledger : Ledger env.cfg A (s.cxt.plan env) s.verified s.fu.dev.mem items
  lists : Lists (s.fu.dev.mem.fwd A.trial) sig
    (hid ++ items.map ((s.cxt.plan env).entry A) ++ [imageEntry A s.cxt.trialMemStart (s.hdr env)])
  blank : (s.hdr env).imageId ≠ fs1ImgId → FsBlank env.cfg A (s.cxt.plan env) s.fu.dev.mem items
  hdl : s.cxt.partitionHdl = some k
  created : s.fu.Created k (createdClient A (hid.length + items.length) (s.hdr env).version (s.place env A))
  length : s.cxt.imageWrtLength = (s.hdr env).imageLength
  digest : s.cxt.digest.length = s.cxt.imageWrtCount
  written : (s.cxt.plan env).Clean env.cfg A s.cxt.imageIndex → Written s.fu.dev.mem (s.place env A) s.cxt.digest

/-- What is open of the current image is blank up to `hi`. -/
def Ahead (env : Env) (A : Area) (s : Session) (hi : ℕ) : Prop :=
  (s.cxt.plan env).Clean env.cfg A s.cxt.imageIndex → Blank s.fu.dev.mem (s.place env A) s.cxt.imageWrtCount hi

section

variable {env : Env} {fu₀ : Fu} {A : Area} {s s' : Session} {sig : Front} {k : ℕ} {hid : List ImageEntry} {items : List Item}

theorem Filling.place (h : Filling env A sig hid items s k) : (s.fu.handles k).place = s.place env A := by
  rw [h.created.handle, createdClient_place]

/-- The partition of an open image lies behind the FWD blocks. -/
theorem Filling.off (h : Filling env A sig hid items s k) (ho : A.OffFwds) (hk : Opened A s k)
    (hid : (s.place env A).imgId ≠ sblImgId) : (s.place env A).imgSize = 0 ∨ fwUpgradeMaxFwd * 4096 ≤ (s.place env A).imgStart := by
  rw [← h.place] at hid ⊢
  exact hk.holds.off ho hid

/-- Changes in the partition of the current image, whatever becomes of the image itself. -/
theorem Filling.image (ho : A.OffFwds) (hb : Busy env A fu₀.dev s) (hd : Downloading s.cxt)
    (hk : Opened A s k) (h : Filling env A sig hid items s k) (hne : s.cxt.imageWrtLength ≠ 0) {m' : Mem}
    (hm : OnlyIn (s.place env A) s.fu.dev.mem m') :
    Ledger env.cfg A (s.cxt.plan env) s.verified m' items ∧
    Lists (m'.fwd A.trial) sig (hid ++ items.map ((s.cxt.plan env).entry A) ++
      [imageEntry A s.cxt.trialMemStart (s.hdr env)]) ∧
    ((s.hdr env).imageId ≠ fs1ImgId → FsBlank env.cfg A (s.cxt.plan env) m' items) := by
  have hroom := hd.room hb.placing env
  refine ⟨h.ledger.image ho hb.grown.1 hb.placing.start_le hroom (fun _ => ⟨hd.index, ?_⟩) hm.image, ?_, fun hfs => ?_⟩
  · show (s.hdr env).imageLength ≠ 0
    rw [← h.length]
    exact hne
  · exact h.lists.low hb.grown.1 fun x hx => hm.low (h.off ho hk) hx
  · exact (h.blank hfs).image ho hb.grown.1 hb.placing.start_le hroom hfs hm.image

/-- A piece is received. -/
theorem writeImage_filling (hL : Layout env.cfg fu₀ A) (ho : A.OffFwds) (hb : Busy env A fu₀.dev s)
    (hd : Downloading s.cxt) (hk : Opened A s k) (h : Filling env A sig hid items s k) {n : ℕ} (h0 : 0 < n)
    (hn : n ≤ s.cxt.buffer.length - s.cxt.bufOffset) (hlen : s.cxt.imageWrtCount + n ≤ s.cxt.imageWrtLength)
    (ha : Ahead env A s ((s.cxt.imageWrtCount / 4096 + 1) * 4096)) (heq : writeImage n s = (.ok (), s')) :
    Filling env A sig hid items s' k ∧ Ahead env A s' (blockCeil s'.cxt.imageWrtCount) ∧
      s'.cxt = { s.cxt with
        digest := s.cxt.digest ++ (s.cxt.buffer.drop s.cxt.bufOffset).take n
        bufOffset := s.cxt.bufOffset + n
        fileReadCount := u32 (s.cxt.fileReadCount + n)
        imageWrtCount := s.cxt.imageWrtCount + n } ∧
      s'.verified = s.verified ∧ s'.script = s.script ∧ s'.phase = s.phase ∧ s'.fu.handles = s.fu.handles ∧
      s.cxt.imageWrtCount + n ≤ (s.place env A).imgSize := by
  have hne : s.cxt.imageWrtLength ≠ 0 := by omega
  obtain ⟨fu', rfl, hh, hsz, hin, hw⟩ := writeImage_ok hL.sane hk h0 hb.placing.buffer hn hlen heq
  rw [h.place] at hin hw
  obtain ⟨h₁, h₂, h₃⟩ := h.image ho hb hd hk hne hin
  have hall : (s.cxt.plan env).Clean env.cfg A s.cxt.imageIndex →
      Written fu'.dev.mem (s.place env A) (s.cxt.digest ++ (s.cxt.buffer.drop s.cxt.bufOffset).take n) ∧
      Blank fu'.dev.mem (s.place env A) (s.cxt.imageWrtCount + n) (blockCeil (s.cxt.imageWrtCount + n)) :=
    fun hcl => hw h.digest (h.written hcl) (ha hcl)
  have hpl : ((s.cxt.buffer.drop s.cxt.bufOffset).take n).length = n := by
    rw [List.length_take, List.length_drop]
    omega
  have hsz' : s.cxt.imageWrtCount + n ≤ (s.place env A).imgSize := by
    rw [← h.place]
    exact hsz
  refine ⟨⟨h₁, h₂, h₃, h.hdl, ⟨h.created.lt, hh ▸ h.created.handle, hh ▸ h.created.before⟩, h.length, ?_,
    fun hcl => (hall hcl).1⟩, fun hcl => (hall hcl).2, rfl, rfl, rfl, rfl, hh, hsz'⟩
  show (s.cxt.digest ++ _).length = s.cxt.imageWrtCount + n
  rw [List.length_append, h.digest, hpl]

/-- The block of the next piece is erased. -/
theorem eraseNext_filling (hL : Layout env.cfg fu₀ A) (ho : A.OffFwds) (hb : Busy env A fu₀.dev s)
    (hd : Downloading s.cxt) (hk : Opened A s k) (h : Filling env A sig hid items s k) (hne : s.cxt.imageWrtLength ≠ 0)
    (ha : Ahead env A s (blockCeil s.cxt.imageWrtCount)) (heq : eraseNext s = (.ok (), s')) :
    Filling env A sig hid items s' k ∧ Ahead env A s' ((s'.cxt.imageWrtCount / 4096 + 1) * 4096) ∧
      ∃ fu', s' = { s with fu := fu' } ∧ fu'.handles = s.fu.handles := by
  obtain ⟨fu', rfl, hh, hin, hw, hb'⟩ := eraseNext_ok hL.sane hk (by omega) heq
  rw [h.place] at hin hw hb'
  obtain ⟨h₁, h₂, h₃⟩ := h.image ho hb hd hk hne hin
  exact ⟨⟨h₁, h₂, h₃, h.hdl, ⟨h.created.lt, hh ▸ h.created.handle, hh ▸ h.created.before⟩, h.length, h.digest,
    fun hcl => hw _ h.digest (h.written hcl)⟩, fun hcl => hb' (ha hcl), fu', rfl, hh⟩

/-- What closing an image does. -/
theorem closeImage_eq (hL : Layout env.cfg fu₀ A) (hb : Busy env A fu₀.dev s) (hd : Downloading s.cxt) :
    ∃ s', closeImage (s.hdr env) s = (.ok (), s') ∧ s'.fu.dev = s.fu.dev ∧ s'.verified = s.verified ∧
      s'.script = s.script ∧ s'.phase = s.phase ∧ s'.cxt = { s.cxt with
        partitionHdl := none, trialMemStart := s.cxt.trialMemStart + (s.hdr env).taken
        imageIndex := s.cxt.imageIndex + 1, imageWrtLength := 0 } := by
  have hmem := hL.sane.data_lt A.mem (by simp [Area.data])
  have hroom : s.cxt.trialMemStart + (s.hdr env).taken ≤ A.mem.start + A.mem.size := hd.room hb.placing env
  have htaken : (if (s.hdr env).imageId ≠ fs1ImgId ∧ (s.hdr env).imageId ≠ sblImgId then
      u32 (s.cxt.trialMemStart + (s.hdr env).diskSize) else s.cxt.trialMemStart) =
        s.cxt.trialMemStart + (s.hdr env).taken := by
    rw [ImageHdr.taken] at hroom ⊢
    by_cases hid : (s.hdr env).imageId = fs1ImgId ∨ (s.hdr env).imageId = sblImgId
    · rw [if_pos hid, if_neg (by tauto), Nat.add_zero]
    · rw [if_neg hid] at hroom
      rw [if_neg hid, if_pos (by tauto), u32_of_lt (by omega)]
  refine ⟨_, rfl, ?_, ?_, ?_, ?_, ?_⟩
  · simp only [Session.setCxt, Session.freePartitionHdl_dev]
  · simp only [Session.setCxt, Session.freePartitionHdl_verified]
  · simp only [Session.setCxt, Session.freePartitionHdl]
    split <;> rfl
  · simp only [Session.setCxt, Session.freePartitionHdl]
    split <;> rfl
  · simp only [Session.setCxt, Session.freePartitionHdl_cxt, htaken]

/-- An image is closed and joins the others. -/
theorem closeImage_idle (hL : Layout env.cfg fu₀ A) (hb : Busy env A fu₀.dev s) (hd : Downloading s.cxt) {d : Bytes}
    {v : List (ℕ × Bytes)} (hl : Ledger env.cfg A (s.cxt.plan env) v s.fu.dev.mem items)
    (hls : Lists (s.fu.dev.mem.fwd A.trial) sig
      (hid ++ items.map ((s.cxt.plan env).entry A) ++ [imageEntry A s.cxt.trialMemStart (s.hdr env)]))
    (hbl : ((s.hdr env).imageId = fs1ImgId → d = []) → FsBlank env.cfg A (s.cxt.plan env) s.fu.dev.mem items)
    (hlen : d.length = (s.hdr env).imageLength) (hfit : d.length ≤ (s.place env A).imgSize)
    (hv : ∀ x ∈ v, x ∈ s.verified) (hdv : d ≠ [] → (s.cxt.imageIndex, d) ∈ s.verified)
    (hw : (s.cxt.plan env).Clean env.cfg A s.cxt.imageIndex → Written s.fu.dev.mem (s.place env A) d)
    (heq : closeImage (s.hdr env) s = (.ok (), s')) :
    Idle env A sig hid (items ++ [⟨s.cxt.imageIndex, s.cxt.trialMemStart, d⟩]) s' ∧
      s'.cxt.imageWrtLength = 0 ∧ s'.cxt.head = s.cxt.head ∧ s'.cxt.state = s.cxt.state := by
  obtain ⟨s₁, heq₁, hdev, hver, -, -, hc⟩ := closeImage_eq hL hb hd
  rw [heq₁] at heq
  cases heq
  have hplan : s'.cxt.plan env = { s.cxt.plan env with
      index := s.cxt.imageIndex + 1, memStart := s.cxt.trialMemStart + (s.hdr env).taken } := by
    rw [hc]
    rfl
  refine ⟨⟨?_, ?_, ?_, ?_⟩, by rw [hc], by rw [hc]; rfl, by rw [hc]⟩
  · rw [hplan, hver, hdev]
    exact hl.add (absurd hd.index ∘ Nat.not_lt.mpr) (fun _ => hd.flag) hb.placing.start_le hlen hfit hv hdv fun hcl _ => hw hcl
  · rw [hplan, hdev, List.map_append, ← List.append_assoc]
    exact hls
  · rw [hplan, hdev]
    intro hn hdj hit
    refine hbl (fun hfs => ?_) hn hdj fun it h => hit it (List.mem_append_left _ h)
    exact hit _ (List.mem_append_right _ (List.mem_singleton_self _)) hfs
  · rw [hc]
    exact hd.room hb.placing env

/-- A session that is not done: an all-in-one file goes from the last image straight to the end. -/
def Cxt.Going (c : Cxt) : Prop := c.state ≠ .finish ∧ (c.state = .duplicateFs → c.format ≠ formatPartialUpgrade)

/-- The last piece of an image is there and the image is verified. -/
theorem finishImage_idle (hL : Layout env.cfg fu₀ A) (hb : Busy env A fu₀.dev s) (hd : Downloading s.cxt)
    (h : Filling env A sig hid items s k) (hk : Opened A s k) (hdone : s.cxt.imageWrtLength ≤ s.cxt.imageWrtCount)
    (hne : s.cxt.imageWrtLength ≠ 0) (hst : s.cxt.state = .processImage) {last : Bool}
    (heq : finishImage env (s.hdr env) s = (.ok last, s')) :
    Idle env A sig hid (items ++ [⟨s.cxt.imageIndex, s.cxt.trialMemStart, s.cxt.digest⟩]) s' ∧
      s'.cxt.imageWrtLength = 0 ∧ s'.cxt.head = s.cxt.head ∧ s'.cxt.Going := by
  have hcount : s.cxt.imageWrtCount = s.cxt.imageWrtLength := Nat.le_antisymm hk.count hdone
  have hdl : s.cxt.digest.length = (s.hdr env).imageLength := by rw [h.digest, hcount, h.length]
  rw [finishImage] at heq
  obtain ⟨u, s₁, h₁, heq⟩ := Cmd.bind_eq_ok heq
  rw [verifyImageHash] at h₁
  split at h₁
  swap
  · cases h₁
  cases h₁
  obtain ⟨u, s₂, h₂, heq⟩ := Cmd.bind_eq_ok heq
  have hb₁ : Busy env A fu₀.dev { s with verified := (s.cxt.imageIndex, s.cxt.digest) :: s.verified } := by
    refine ⟨hb.grown, hb.placing, ?_⟩
    intro i hi x hx hfl hlen
    obtain ⟨b, hmem, hhash'⟩ := hb.verified i hi x hx hfl hlen
    exact ⟨b, List.mem_cons_of_mem _ hmem, hhash'⟩
  have hclosed := closeImage_idle hL (s := { s with verified := (s.cxt.imageIndex, s.cxt.digest) :: s.verified })
    hb₁ hd h.ledger h.lists (fun hfs => h.blank fun hc => ?_) hdl ?_ (fun x hx => List.mem_cons_of_mem _ hx)
    (fun _ => List.mem_cons_self) h.written h₂
  · obtain ⟨hidle, hw, hhd, hst₂⟩ := hclosed
    -- from here on only the state changes
    rw [Cmd.bind_ok (Cmd.gets_apply _ _)] at heq
    split at heq
    · cases heq
      exact ⟨⟨hidle.ledger, hidle.lists, hidle.blank, hidle.room⟩, hw, hhd, State.noConfusion, State.noConfusion⟩
    rename_i hpart
    split at heq
    · cases heq
      exact ⟨⟨hidle.ledger, hidle.lists, hidle.blank, hidle.room⟩, hw, hhd, State.noConfusion, fun _ => hpart⟩
    · cases heq
      refine ⟨hidle, hw, hhd, ?_, fun _ => hpart⟩
      rw [hst₂.trans hst]
      decide
  · have hz := congrArg List.length (hfs hc)
    rw [List.length_nil, h.digest] at hz
    omega
  · show s.cxt.digest.length ≤ _
    rw [h.digest, ← h.place]
    exact hk.size

/-- What is in the trial FWD and in the partitions after the header `H`. -/
inductive Accounted (env : Env) (A : Area) (H : Head) (sig : Front) (hid : List ImageEntry) (s : Session) : Prop
  | idle (items : List Item) (hH : s.cxt.head = H) (hw : s.cxt.imageWrtLength = 0)
    (hs : s.cxt.Going) (h : Idle env A sig hid items s)
  | filling (items : List Item) (k : ℕ) (hH : s.cxt.head = H) (hw : s.cxt.imageWrtLength ≠ 0)
    (hs : s.cxt.state ∉ [State.duplicateImages, .duplicateFs, .finish]) (h : Filling env A sig hid items s k)
    (ha : Ahead env A s ((s.cxt.imageWrtCount / 4096 + 1) * 4096))

variable {H : Head}

/-- The state, the requests and the buffer do not matter. -/
theorem Accounted.keep (h : Accounted env A H sig hid s) (hfu : s'.fu = s.fu) (hv : s'.verified = s.verified) {t : State}
    (ht : t ∉ [State.duplicateImages, .duplicateFs, .finish]) {st : SessionStatus} {b : Bytes} {o f : ℕ} (hc : s'.cxt = { s.cxt with
      state := t, sessionStatus := st, buffer := b, bufOffset := o, fileReadCount := f }) :
    Accounted env A H sig hid s' := by
  obtain ⟨fu, c, sc, ph, v⟩ := s'
  simp only at hfu hv hc
  subst hfu hv hc
  cases h with
  | idle items hH hw hs h =>
    simp only [List.mem_cons, List.not_mem_nil, or_false, not_or] at ht
    exact .idle items hH hw ⟨ht.2.2, fun hc => absurd hc ht.2.1⟩ ⟨h.ledger, h.lists, h.blank, h.room⟩
  | filling items k hH hw hs h ha =>
    exact .filling items k hH hw ht ⟨h.ledger, h.lists, h.blank, h.hdl, h.created, h.length, h.digest, h.written⟩ ha

/-- A pass of the loop once the partition is open. -/
theorem receivePiece_accounted (hL : Layout env.cfg fu₀ A) (ho : A.OffFwds) (hb : Busy env A fu₀.dev s)
    (hd : Downloading s.cxt) (hk : Opened A s k) (hst : s.cxt.state = .processImage) (hbuf : s.cxt.buffer ≠ [])
    (hoff : s.cxt.format ≠ formatPartialUpgrade →
      s.cxt.bufOffset < s.cxt.buffer.length ∧ s.cxt.imageWrtCount < s.cxt.imageWrtLength)
    (hH : s.cxt.head = H) (h : Filling env A sig hid items s k)
    (ha : Ahead env A s ((s.cxt.imageWrtCount / 4096 + 1) * 4096)) {go : Bool}
    (heq : receivePiece env (s.hdr env) s = (.ok go, s')) : Accounted env A H sig hid s' := by
  rw [receivePiece, Cmd.bind_ok (Cmd.gets_apply _ _)] at heq
  rcases hwl : s.cxt.writeLen with e | n
  · rw [hwl] at heq
    cases heq
  rw [hwl] at heq
  obtain ⟨h0, hlen, hn⟩ := writeLen_bounds hwl hk.count hk.length hbuf hoff
  simp only at heq
  rw [Cmd.bind_ok (Cmd.modify_apply _ _)] at heq
  set s₁ := s.setCxt fun c => { c with bufOffset := if c.format = formatPartialUpgrade then 0 else c.bufOffset } with hs₁
  have hk₁ : Opened A s₁ k := hk.keep rfl rfl rfl hk.count hk.size
  have hf₁ : Filling env A sig hid items s₁ k :=
    ⟨h.ledger, h.lists, h.blank, h.hdl, h.created, h.length, h.digest, h.written⟩
  have hb₁ : Busy env A fu₀.dev s₁ := hb.keep hb.grown rfl (by constructor <;> rfl)
  obtain ⟨u, s₂, h₂, heq⟩ := Cmd.bind_eq_ok heq
  obtain ⟨hf₂, ha₂, hc₂, hv₂, -, -, hh₂, hsz⟩ := writeImage_filling hL ho hb₁ ⟨hd.index, hd.flag⟩ hk₁ hf₁ h0 hn hlen ha h₂
  have hplan : SamePlan s.cxt s₂.cxt := by
    rw [hc₂]
    constructor <;> rfl
  have hg₂ : Grown A fu₀.dev s₂.fu.dev := by
    rcases writeImage_cases hL hb₁.grown hk₁ h0 hb.placing.buffer hn hlen with ⟨e, s', he, -⟩ | ⟨fu', d, o, f, he, hg, -, -⟩
    · rw [he] at h₂
      cases h₂
    · rw [he] at h₂
      cases h₂
      exact hg
  have hb₂ : Busy env A fu₀.dev s₂ := hb.keep hg₂ hv₂ hplan
  have hd₂ := hd.keep hplan
  have hH₂ : s₂.cxt.head = H := by
    rw [hc₂]
    exact hH
  have hne₂ : s₂.cxt.imageWrtLength ≠ 0 := by
    rw [hc₂]
    show s.cxt.imageWrtLength ≠ 0
    omega
  have hk₂ : Opened A s₂ k := by
    refine hk₁.keep hh₂ ?_ ?_ ?_ ?_ <;> rw [hc₂]
    · exact hlen
    · show s.cxt.imageWrtCount + n ≤ _
      rw [show (s₁.fu.handles k).imgSize = (s₁.place env A).imgSize from congrArg Spot.imgSize hf₁.place]
      exact hsz
  have hst₂ : s₂.cxt.state = .processImage := by
    rw [hc₂]
    exact hst
  obtain ⟨last, s₃, h₃, heq⟩ := Cmd.bind_eq_ok heq
  rw [finishIfWritten] at h₃
  split at h₃
  · rename_i hdone
    have hhdr : s.hdr env = s₂.hdr env := by
      rw [Session.hdr, Session.hdr, hplan.hdrAt, hplan.index]
    rw [hhdr] at h₃
    obtain ⟨hidle, hw₃, hhd₃, hdup⟩ := finishImage_idle hL hb₂ hd₂ hf₂ hk₂ hdone hne₂ hst₂ h₃
    have hacc : Accounted env A H sig hid s₃ := .idle _ (hhd₃.trans hH₂) hw₃ hdup hidle
    split at heq
    · cases heq
      exact hacc
    · have hn : eraseNext s₃ = (.ok (), s₃) := if_neg (by simp [hw₃])
      rw [Cmd.bind_ok hn] at heq
      cases heq
      exact hacc
  · cases h₃
    simp only [Bool.false_eq_true, if_false] at heq
    obtain ⟨u, s₄, h₄, heq⟩ := Cmd.bind_eq_ok heq
    obtain ⟨hf₄, ha₄, fu₄, hs₄, -⟩ := eraseNext_filling hL ho hb₂ hd₂ hk₂ hf₂ hne₂ ha₂ h₄
    cases heq
    refine .filling items k ?_ ?_ ?_ hf₄ ha₄ <;> rw [hs₄]
    · exact hH₂
    · exact hne₂
    · show s₂.cxt.state ∉ _
      rw [hst₂]
      decide

/-- FS2 is a partition of whole blocks. -/
theorem Layout.fs2_mod (hL : Layout env.cfg fu₀ A) : A.fs2.size % 4096 = 0 := by
  rw [hL.area.fs2, sessionArea]
  simp only [partitionRange]
  split
  · rename_i i e he
    have hne : e.imageId ≠ sblImgId := by
      rw [(findEntry_id he).1]
      decide
    simp only [clientOf, if_pos hne, u32]
    omega
  · rfl

/-- The partition of the current image is open, nothing is written yet. -/
theorem openImage_opened (hL : Layout env.cfg fu₀ A) (ho : A.OffFwds) (hb : Busy env A fu₀.dev s)
    (hd : Downloading s.cxt) (h : Idle env A sig hid items s) (hu : u32 (s.hdr env).imageId ≠ fwdImageUnused)
    (heq : openImage (s.hdr env) s = (.ok (), s')) :
    ∃ k fu', s' = { s with
        fu := fu'
        cxt := { s.cxt with
          imageWrtCount := 0, imageWrtLength := (s.hdr env).imageLength, partitionHdl := some k } } ∧
      fu'.Created k (createdClient A (hid.length + items.length) (s.hdr env).version (s.place env A)) ∧
      Ledger env.cfg A (s.cxt.plan env) s.verified fu'.dev.mem items ∧
      Lists (fu'.dev.mem.fwd A.trial) sig
        (hid ++ items.map ((s.cxt.plan env).entry A) ++ [imageEntry A s.cxt.trialMemStart (s.hdr env)]) ∧
      FsBlank env.cfg A (s.cxt.plan env) fu'.dev.mem items ∧
      ((s.cxt.plan env).Clean env.cfg A s.cxt.imageIndex → Blank fu'.dev.mem (s.place env A) 0 4096) := by
  have hroom : s.cxt.trialMemStart + (s.hdr env).taken ≤ A.mem.start + A.mem.size := hd.room hb.placing env
  obtain ⟨k, fu', rfl, hop, him, htab, hbl⟩ := openImage_ok hL ho hb hd h.lists hu heq
  refine ⟨k, fu', rfl, ?_, ?_, hop.lists, ?_, ?_⟩
  · have hc := hop.created
    rwa [List.length_append, List.length_map] at hc
  · by_cases hown : (s.hdr env).imageId = fs1ImgId ∨ (s.hdr env).imageId = sblImgId
    · exact h.ledger.table ho hb.grown.1 (Nat.le_trans (Nat.le_add_right _ _) hroom) (htab hown)
    · exact h.ledger.image ho hb.grown.1 hb.placing.start_le hroom (fun hc => absurd hc hown) him
  · by_cases hfs : (s.hdr env).imageId = fs1ImgId
    · exact h.blank.table ho hb.grown.1 (htab (.inl hfs))
    · exact h.blank.image ho hb.grown.1 hb.placing.start_le hroom hfs him
  · intro hcl
    by_cases hfs : (s.hdr env).imageId = fs1ImgId
    · -- the active FS2 is blank, and has at least one block
      obtain ⟨hn, hpos, hdj, hbefore⟩ := hcl hfs
      have hblank : FsBlank env.cfg A (s.cxt.plan env) fu'.dev.mem items := h.blank.table ho hb.grown.1 (htab (.inl hfs))
      have hall : ∀ it ∈ items, ((s.cxt.plan env).hdr it.index).imageId = fs1ImgId → it.data = [] := by
        intro it hit hid
        apply List.eq_nil_of_length_eq_zero
        rw [h.ledger.length it hit]
        exact hbefore _ (h.ledger.below it hit) hid
      have hmod := hL.fs2_mod
      intro _ x hx hx'
      rw [Session.place, imagePlace, if_pos hfs] at hx hx'
      refine hblank hn hdj hall x (Range.mem_def.mpr ?_)
      simp only at hx hx'
      omega
    · exact hbl hfs

/-- Every image of the header can be told from an unused entry. -/
def Head.Used (H : Head) : Prop := ∀ h ∈ H.imageHdr, u32 h.imageId ≠ fwdImageUnused

theorem Head.Used.hdr (hu : H.Used) (hb : Busy env A fu₀.dev s) (hd : Downloading s.cxt) (hH : s.cxt.head = H) :
    u32 (s.hdr env).imageId ≠ fwdImageUnused := by
  refine hu _ ?_
  rw [← hH]
  exact hd.mem hb.placing env

/-- A pass of the loop of `fw_upgrade_process_receive_image`. -/
theorem receivePass_accounted (hL : Layout env.cfg fu₀ A) (ho : A.OffFwds) (hu : H.Used) (hw : Working env A fu₀ s)
    (h : Accounted env A H sig hid s) {go : Bool} (heq : receivePass env s = (.ok go, s')) :
    Accounted env A H sig hid s' := by
  have hb := hw.busy
  have hd := hw.downloading
  rw [receivePass, Cmd.bind_ok (Cmd.gets_apply _ _)] at heq
  split at heq
  · cases heq
    exact h
  rename_i hend
  have hoff : s.cxt.format ≠ formatPartialUpgrade → s.cxt.bufOffset < s.cxt.buffer.length := fun hf => by
    by_contra hle
    exact hend ⟨hf, by omega⟩
  split at heq
  · rename_i hopen
    cases h with
    | filling items k hH hne _ h ha => exact absurd hopen hne
    | idle items hH _ _ h =>
      obtain ⟨u, s₁, h₁, heq⟩ := Cmd.bind_eq_ok heq
      rcases openImage_cases hL hb hd with ⟨e, s₂, he, -⟩ | ⟨s₂, k', he, hb₁, hk₁, -⟩
      · rw [h₁] at he
        cases he
      rw [h₁] at he
      cases he
      obtain ⟨k, fu', rfl, hcr, hled, hls, hbl, hblank⟩ := openImage_opened hL ho hb hd h (hu.hdr hb hd hH) h₁
      have hkk : k = k' := Option.some.inj hk₁.hdl
      subst hkk
      split at heq
      · -- an image without bytes
        rename_i hempty
        obtain ⟨u, s₂, h₂, heq⟩ := Cmd.bind_eq_ok heq
        obtain ⟨hidle, hw₂, hH₂, hst₂⟩ := closeImage_idle hL (d := []) hb₁ ⟨hd.index, hd.flag⟩ hled hls (fun _ => hbl) hempty.2.symm
          (Nat.zero_le _) (fun x hx => hx) (fun hne => absurd rfl hne) (fun _ => rfl) h₂
        have hformat : s₂.cxt.format ≠ formatPartialUpgrade := by
          rw [show s₂.cxt.format = s.cxt.format from congrArg Head.format hH₂]
          exact hempty.1
        rw [Cmd.bind_ok (Cmd.gets_apply _ _)] at heq
        split at heq
        · cases heq
          exact .idle _ (hH₂.trans hH) hw₂ ⟨State.noConfusion, fun _ => hformat⟩
            ⟨hidle.ledger, hidle.lists, hidle.blank, hidle.room⟩
        · cases heq
          refine .idle _ (hH₂.trans hH) hw₂ ⟨?_, fun _ => hformat⟩ hidle
          rw [hst₂]
          show s.cxt.state ≠ _
          rw [hw.state]
          decide
      · rename_i hempty
        rw [Cmd.bind_ok (Cmd.modify_apply _ _)] at heq
        generalize hs₂ : Session.setCxt _ (fun c => { c with digest := [] }) = s₂ at heq
        have hplan : SamePlan s.cxt s₂.cxt := by
          rw [← hs₂]
          constructor <;> rfl
        have hfill : Filling env A sig hid items s₂ k := by
          rw [← hs₂]
          exact ⟨hled, hls, fun _ => hbl, rfl, hcr, rfl, rfl, fun _ => rfl⟩
        have hahead : Ahead env A s₂ ((s₂.cxt.imageWrtCount / 4096 + 1) * 4096) := by
          have hcount : s₂.cxt.imageWrtCount = 0 := by
            rw [← hs₂]
            rfl
          rw [hcount, show (0 / 4096 + 1) * 4096 = 4096 from rfl, ← hs₂]
          exact hblank
        have hhdr : s.hdr env = s₂.hdr env := by
          rw [Session.hdr, Session.hdr, hplan.hdrAt, hplan.index]
        change receivePiece env (s.hdr env) s₂ = _ at heq
        rw [hhdr] at heq
        refine receivePiece_accounted hL ho (hb₁.keep (by rw [← hs₂]; exact hb₁.grown) (by rw [← hs₂]; rfl)
          (by rw [← hs₂]; constructor <;> rfl)) (hd.keep hplan) (k := k) ?_ ?_ ?_ ?_ ?_ hfill hahead heq
        · rw [← hs₂]
          exact hk₁.keep rfl rfl rfl hk₁.count hk₁.size
        · rw [← hs₂]
          exact hw.state
        · rw [hplan.buffer]
          exact hw.buffer
        · intro hf
          rw [hplan.format] at hf
          refine ⟨?_, ?_⟩
          · rw [hplan.buffer, ← hs₂]
            exact hoff hf
          · rw [← hs₂]
            exact Nat.pos_of_ne_zero fun hz => hempty ⟨hf, hz⟩
        · rw [← hs₂]
          exact hH
  · rename_i hopen
    cases h with
    | idle items hH hz _ h => exact absurd hz hopen
    | filling items k hH hne _ h ha =>
      obtain ⟨hlt, k', hk⟩ := hw.ongoing hne
      have hkk : k' = k := by
        have := hk.hdl.symm.trans h.hdl
        exact Option.some.inj this
      subst hkk
      exact receivePiece_accounted hL ho hb hd hk hw.state hw.buffer (fun hf => ⟨hoff hf, hlt⟩) hH h ha heq

theorem receiveLoop_accounted (hL : Layout env.cfg fu₀ A) (ho : A.OffFwds) (hu : H.Used) :
    ∀ (n : ℕ) {s s' : Session}, Working env A fu₀ s → Accounted env A H sig hid s →
      receiveLoop env n s = (.ok (), s') → Accounted env A H sig hid s'
  | 0, s, s', _, h, heq => by
    cases heq
    exact h
  | n + 1, s, s', hw, h, heq => by
    obtain ⟨go, s₁, h₁, heq⟩ := Cmd.bind_eq_ok heq
    have hacc := receivePass_accounted hL ho hu hw h h₁
    have hpass := (receivePass_passEnd hL).ok hw h₁
    cases go with
    | false =>
      cases heq
      exact hacc
    | true => exact receiveLoop_accounted hL ho hu n hpass hacc heq

theorem processImage_accounted (hL : Layout env.cfg fu₀ A) (ho : A.OffFwds) (hu : H.Used) (hw : Working env A fu₀ s)
    (h : Accounted env A H sig hid s) (heq : processImage env s = (.ok (), s')) : Accounted env A H sig hid s' := by
  obtain ⟨u, s₁, h₁, heq⟩ := Cmd.bind_eq_ok heq
  have hacc := receiveLoop_accounted hL ho hu _ hw h h₁
  cases heq
  show Accounted env A H sig hid (if _ then _ else _)
  split
  · exact hacc.keep rfl rfl (t := .receiveData) (by decide) rfl
  · exact hacc

end

end Qcc730.Upgrade
