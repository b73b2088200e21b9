import Qcc730.Upgrade.Ranks
import Qcc730.Upgrade.Ledger

/-! The ledger in every state of a session.

    Before the header the trial FWD lists what is taken over from the active FWD; the header gives it its
    signature; from then on the images follow. At the end come the images that did not change, copied from
    the active FWD. So in every run, as far as it has no error, the trial FWD and the partitions hold what
    they should. -/

namespace Qcc730.Upgrade
open Lib Flash Sbl

/-! ### Before the header -/

/-- The ids of the partitions taken over. -/
def hiddenIds : List ℕ := [fs2ImgId, ramdumpImgId, userdataImgId]

/-- The trial FWD before the header; `wiped` says that the active FS2 has been erased. -/
structure EarlyBook (cfg : Config) (A : Area) (wiped : Prop) (hid : List ImageEntry) (m : Mem) : Prop where
  lists : Lists (m.fwd A.trial) blankFront hid
  hidden : ∀ e ∈ hid, e.imageId ∈ hiddenIds
  blank : cfg.noFs = false → wiped → ∀ x ∈ A.fs2, m.flash x = 0xFF

/-- The entry of a partition that is taken over under the id `id`. -/
def takenEntry (id : ℕ) (c : Client) : ImageEntry := truncEntry (newEntry id c.imgVersion c.imgStart c.imgSize)

/-- What the trial FWD takes over from the active FWD `f`: its FS1 first, as FS2. -/
def TakenOver (cfg : Config) (f : Fwd) (hid : List ImageEntry) : Prop :=
  cfg.noFs = false → ∃ i e rest, findEntry f fs1ImgId = some (i, e) ∧
    hid = takenEntry fs2ImgId (clientOf 0 i e) :: rest ∧ ∀ x ∈ rest, x.imageId ∈ [ramdumpImgId, userdataImgId]

/-- The partitions taken over, by the state before the header: none before `PREPARE_FS`. -/
structure Hides (cfg : Config) (f : Fwd) (hid : List ImageEntry) (c : Cxt) : Prop where
  count : c.hiddenImagesCount = hid.length
  before : c.state ∈ [State.eraseSecondFs, .prepareFs] → hid = []
  taken : c.state ∉ [State.eraseSecondFs, .prepareFs] → TakenOver cfg f hid

/-- `more` was taken over, and counted. -/
structure Adds (cfg : Config) (A : Area) (wiped : Prop) (hid more : List ImageEntry) (s s' : Session) : Prop where
  book : EarlyBook cfg A wiped (hid ++ more) s'.fu.dev.mem
  count : s'.cxt.hiddenImagesCount = s.cxt.hiddenImagesCount + more.length

section

variable {env : Env} {fu₀ : Fu} {A : Area} {s s' : Session} {wiped : Prop} {hid : List ImageEntry}

theorem eraseFwd_book (ht : s.cxt.trialFwdIdx = A.trial) (heq : eraseFwd env s = (.ok (), s')) :
    EarlyBook env.cfg A (s'.cxt.state ≠ .eraseSecondFs) [] s'.fu.dev.mem := by
  rw [eraseFwd, Cmd.bind_ok (Cmd.gets_apply _ _), Cmd.bind_apply, Cmd.orFail, onFu, Cmd.zoom] at heq
  rcases eraseFwd_cases s.cxt.trialFwdIdx s.fu with ⟨e, h⟩ | ⟨hlt, h⟩
  · rw [h] at heq
    cases heq
  rw [h] at heq
  cases heq
  refine ⟨?_, by simp, fun hn hne => ?_⟩
  · show Lists ((s.fu.dev.mem.app (.erase (s.cxt.trialFwdIdx * 4096))).fwd A.trial) _ _
    rw [ht]
    exact lists_erased _ _
  · exfalso
    apply hne
    show (if env.cfg.noFs = true then State.prepareFs else .eraseSecondFs) = _
    rw [hn]
    rfl

/-- The whole open partition is erased. -/
theorem eraseAll_ok (hS : A.Sane) {k : ℕ} {c : Client} (hp : s.cxt.partitionHdl = some k) (hk : s.fu.handles k = c)
    (hold : A.Holds c) (hns : c.imgId ≠ sblImgId) (hend : c.imgStart + c.imgSize < 2 ^ 31)
    (heq : erasePartition 0 c.imgSize s = (.ok (), s')) :
    ∃ fu', s' = { s with fu := fu' } ∧
      fu'.dev.mem = { s.fu.dev.mem with flash := s.fu.dev.mem.flash.erase c.imgStart c.imgSize } := by
  subst hk
  obtain ⟨fu', rfl, -, hm, -⟩ := erase_ok hS hp hold (fun _ => by omega) heq
  rw [eraseIn, if_neg hns] at hm
  exact ⟨fu', rfl, hm⟩

/-- An erased partition leaves the trial FWD alone. -/
theorem EarlyBook.erase (h : EarlyBook env.cfg A wiped hid s.fu.dev.mem) (ht : A.trial < fwUpgradeMaxFwd) (ho : A.OffFwds) {c : Client}
    (hold : A.Holds c) (hns : c.imgId ≠ sblImgId)
    (hm : s'.fu.dev.mem = { s.fu.dev.mem with flash := s.fu.dev.mem.flash.erase c.imgStart c.imgSize })
    {wiped' : Prop} (hb : wiped' → wiped ∨ ∀ x ∈ A.fs2, c.imgStart ≤ x ∧ x < c.imgStart + c.imgSize) :
    EarlyBook env.cfg A wiped' hid s'.fu.dev.mem := by
  refine ⟨?_, h.hidden, fun hn hne x hx => ?_⟩
  · refine h.lists.low ht fun x hx => ?_
    rw [hm]
    refine Memory.erase_out ?_
    rcases hold.off ho hns with hz | hz <;> omega
  · rw [hm]
    show s.fu.dev.mem.flash.erase _ _ x = _
    by_cases hin : c.imgStart ≤ x ∧ x < c.imgStart + c.imgSize
    · exact Memory.erase_in hin.1 hin.2
    · rw [Memory.erase_out (by omega)]
      rcases hb hne with hst | hall
      · exact h.blank hn hst x hx
      · exact absurd (hall x hx) hin

/-- An erased FS2 is blank. -/
theorem eraseSecondFs_book (hL : Layout env.cfg fu₀ A) (ho : A.OffFwds) (he : Early A fu₀.dev s)
    (h : EarlyBook env.cfg A wiped hid s.fu.dev.mem) (heq : eraseSecondFs s = (.ok (), s')) : EarlyBook env.cfg A True hid s'.fu.dev.mem := by
  rw [eraseSecondFs, Cmd.bind_ok (Cmd.gets_apply _ _)] at heq
  obtain ⟨c, s₁, h₁, heq⟩ := Cmd.bind_eq_ok heq
  obtain ⟨u, s₂, h₂, heq⟩ := Cmd.bind_eq_ok heq
  rcases openPartition_cases s.activeFwd fs2ImgId .flashImageNotFound s with hop | ⟨k, i, en, hlt, -, -, hf, hop⟩
  · rw [hop] at h₁
    cases h₁
  rw [hop] at h₁
  cases h₁
  obtain ⟨hold, hend⟩ := hL.holds_found he.grown (.inl rfl) hlt hf s.activeFwd
  obtain ⟨hst, hsz⟩ := hL.fs2_place he.grown hlt hf s.activeFwd
  have hns : (clientOf s.activeFwd i en).imgId ≠ sblImgId := by
    rw [show (clientOf s.activeFwd i en).imgId = fs2ImgId from (findEntry_id hf).1]
    decide
  obtain ⟨fu₂, rfl, hm₂⟩ := eraseAll_ok hL.sane rfl (Fu.setHandle_same _ _ _) hold hns hend h₂
  rw [Cmd.modify_apply] at heq
  cases heq
  refine h.erase he.grown.1 ho hold hns ?_ fun _ => .inr fun x hx => ?_
  · simp only [Session.setState, Session.setCxt, Session.freePartitionHdl_dev]
    exact hm₂
  · rw [hst, hsz]
    exact Range.mem_def.mp hx

theorem takenEntry_imageId (id : ℕ) (c : Client) : (takenEntry id c).imageId = u32 id := by
  rw [takenEntry, truncEntry]
  show u32 (newEntry id _ _ _).imageId = _
  rw [newEntry_imageId]

/-- A partition is taken over. -/
theorem createHidden_book (ho : A.OffFwds) (he : Early A fu₀.dev s) (h : EarlyBook env.cfg A wiped hid s.fu.dev.mem) {id : ℕ}
    (hid' : id ∈ hiddenIds) {c : Client} (heq : createHidden id c s = (.ok (), s')) :
    Adds env.cfg A wiped hid [takenEntry id c] s s' := by
  have hu : u32 id = id ∧ id ≠ fwdImageUnused := by
    simp only [hiddenIds, List.mem_cons, List.not_mem_nil, or_false] at hid'
    rcases hid' with rfl | rfl | rfl <;> decide
  obtain ⟨u, s₁, h₁, heq⟩ := Cmd.bind_eq_ok heq
  obtain ⟨k, fu', rfl, hl, -, hm, -⟩ := create_ok (v := c.imgVersion) (p := ⟨id, c.imgStart, c.imgSize⟩)
    he.fresh.trial h.lists (by rw [hu.1]; exact hu.2) h₁
  cases heq
  refine ⟨⟨?_, ?_, ?_⟩, rfl⟩
  · show Lists (Mem.fwd (Session.freePartitionHdl _).fu.dev.mem A.trial) _ _
    rw [Session.freePartitionHdl_dev]
    exact hl
  · intro e hmem
    rcases List.mem_append.mp hmem with hmem | hmem
    · exact h.hidden e hmem
    · rw [List.mem_singleton.mp hmem, takenEntry_imageId, hu.1]
      exact hid'
  · intro hn hne x hx
    show (Session.freePartitionHdl _).fu.dev.mem.flash x = _
    rw [Session.freePartitionHdl_dev, ← h.blank hn hne x hx]
    exact hm.flash x (ho.not_trial he.grown.1 A.fs2_data hx)

/-- Nothing was taken over. -/
theorem EarlyBook.adds_nil (h : EarlyBook env.cfg A wiped hid s.fu.dev.mem) : Adds env.cfg A wiped hid [] s s :=
  ⟨by rw [List.append_nil]; exact h, rfl⟩

theorem Adds.of_count {more : List ImageEntry} {s₁ : Session} (h : Adds env.cfg A wiped hid more s₁ s')
    (hc : s₁.cxt.hiddenImagesCount = s.cxt.hiddenImagesCount) : Adds env.cfg A wiped hid more s s' :=
  ⟨h.book, by rw [h.count, hc]⟩

theorem locatePartition_book (h : EarlyBook env.cfg A wiped hid s.fu.dev.mem) {id : ℕ} {e : FuStatus} {r : Except FuStatus Client}
    (heq : locatePartition id e s = (r, s')) :
    EarlyBook env.cfg A wiped hid s'.fu.dev.mem ∧ s'.cxt.hiddenImagesCount = s.cxt.hiddenImagesCount := by
  rcases locatePartition_cases id e s with hl | ⟨k, i, en, -, -, -, -, hl⟩
  · rw [hl] at heq
    cases heq
    exact ⟨h, rfl⟩
  · rw [hl] at heq
    cases heq
    exact ⟨h, rfl⟩

theorem prepareFs2_book (hL : Layout env.cfg fu₀ A) (ho : A.OffFwds) (he : Early A fu₀.dev s)
    (h : EarlyBook env.cfg A wiped hid s.fu.dev.mem) (heq : prepareFs2 s = (.ok (), s')) :
    ∃ i e, findEntry (fu₀.dev.mem.fwd A.active) fs1ImgId = some (i, e) ∧
      Adds env.cfg A wiped hid [takenEntry fs2ImgId (clientOf 0 i e)] s s' := by
  obtain ⟨c, s₁, h₁, heq⟩ := Cmd.bind_eq_ok heq
  have he₁ : Early A fu₀.dev s₁ := (Early.locate _ _).ok he h₁
  obtain ⟨hb₁, hc₁⟩ := locatePartition_book h h₁
  have hadds := (createHidden_book ho he₁ hb₁ (by simp [hiddenIds]) heq).of_count hc₁
  rcases locatePartition_cases fs1ImgId .flashImageNotFound s with hl | ⟨k, i, en, hlt, -, -, hf, hl⟩ <;>
    rw [hl] at h₁ <;> cases h₁
  exact ⟨i, en, hL.active_found he.grown hlt hf, hadds⟩

theorem prepareUserdata_book (ho : A.OffFwds) (he : Early A fu₀.dev s) (h : EarlyBook env.cfg A wiped hid s.fu.dev.mem)
    (heq : prepareUserdata s = (.ok (), s')) :
    ∃ more, Adds env.cfg A wiped hid more s s' ∧ ∀ x ∈ more, x.imageId = userdataImgId := by
  obtain ⟨r, s₁, h₁, heq⟩ := Cmd.bind_eq_ok heq
  rcases hl : locatePartition userdataImgId .flashImageNotFound s with ⟨e | c, s₂⟩
  · rw [Cmd.attempt, hl] at h₁
    cases h₁
    cases heq
    obtain ⟨hb, hc⟩ := locatePartition_book h hl
    exact ⟨[], hb.adds_nil.of_count hc, by simp⟩
  · rw [Cmd.attempt, hl] at h₁
    cases h₁
    have he₁ : Early A fu₀.dev s₂ := (Early.locate _ _).ok he hl
    obtain ⟨hb, hc⟩ := locatePartition_book h hl
    refine ⟨_, (createHidden_book ho he₁ hb (by simp [hiddenIds]) heq).of_count hc, fun x hx => ?_⟩
    rw [List.mem_singleton.mp hx, takenEntry_imageId]
    rfl

theorem prepareRamdump_book (hL : Layout env.cfg fu₀ A) (ho : A.OffFwds) (he : Early A fu₀.dev s)
    (h : EarlyBook env.cfg A wiped hid s.fu.dev.mem) (heq : prepareRamdump s = (.ok (), s')) :
    ∃ more, Adds env.cfg A wiped hid more s s' ∧ ∀ x ∈ more, x.imageId = ramdumpImgId := by
  rw [prepareRamdump, Cmd.bind_ok (Cmd.gets_apply _ _)] at heq
  obtain ⟨r, s₁, h₁, heq⟩ := Cmd.bind_eq_ok heq
  rcases openPartition_cases s.activeFwd ramdumpImgId .flashImageNotFound s with hop | ⟨k, i, en, hlt, -, -, hf, hop⟩
  · rw [Cmd.attempt, hop] at h₁
    cases h₁
    cases heq
    exact ⟨[], h.adds_nil, by simp⟩
  have hopen := (Early.open hL s.activeFwd (.inr rfl) .flashImageNotFound).ok ⟨he, rfl⟩ hop
  rw [Cmd.attempt, hop] at h₁
  cases h₁
  have h₁ : EarlyBook env.cfg A wiped hid ({ s with
      fu := s.fu.setHandle k (clientOf s.activeFwd i en)
      cxt := { s.cxt with partitionHdl := some k } } : Session).fu.dev.mem := h
  have hk := Fu.setHandle_same s.fu k (clientOf s.activeFwd i en)
  obtain ⟨hold, hend⟩ := hopen.holds
  have hns : (clientOf s.activeFwd i en).imgId ≠ sblImgId := by
    rw [show (clientOf s.activeFwd i en).imgId = ramdumpImgId from (findEntry_id hf).1]
    decide
  generalize clientOf s.activeFwd i en = c at *
  generalize hs₁ : ({ s with fu := s.fu.setHandle k c, cxt := { s.cxt with partitionHdl := some k } } : Session) = s₁ at *
  have hp : s₁.cxt.partitionHdl = some k := by rw [← hs₁]
  have hc₁ : s₁.cxt.hiddenImagesCount = s.cxt.hiddenImagesCount := by rw [← hs₁]
  rw [show s.fu.setHandle k c = s₁.fu by rw [← hs₁]] at hk
  simp only at heq
  rw [Cmd.bind_ok (Cmd.gets_apply _ _)] at heq
  obtain ⟨magic, s₂, h₂, heq₂⟩ := Cmd.bind_eq_ok heq
  -- reading changes nothing
  have hs₂ : s₂ = s₁ := by
    have hread := readPartition_state (s₁.cxt.partitionHdl.getD 0) 0 4 s₁.fu
    rw [Cmd.orFail, onFu, Cmd.zoom] at h₂
    rcases hr : fwUpgradeReadPartition (s₁.cxt.partitionHdl.getD 0) 0 4 s₁.fu with ⟨e | b, fu'⟩ <;>
      rw [hr] at h₂ hread <;> cases h₂
    cases hread
    rfl
  rw [hs₂] at heq₂
  obtain ⟨u, s₃, h₃, heq₃⟩ := Cmd.bind_eq_ok heq₂
  obtain ⟨u', s₄, h₄, heq₄⟩ := Cmd.bind_eq_ok heq₃
  cases h₄
  have hbook : EarlyBook env.cfg A wiped hid s₃.fu.dev.mem ∧ Early A fu₀.dev s₃ ∧ s₃.cxt = s₁.cxt := by
    rw [Cmd.when] at h₃
    split at h₃
    · obtain ⟨fu', rfl, hm⟩ := eraseAll_ok hL.sane hp hk hold hns hend h₃
      refine ⟨h₁.erase he.grown.1 ho hold hns hm .inl, ?_, rfl⟩
      exact ((EarlyOpen.eraseAll hL c).ok hopen h₃).toEarly
    · cases h₃
      exact ⟨h₁, hopen.toEarly, rfl⟩
  obtain ⟨hb₃, he₃, hc₃⟩ := hbook
  have hfree : EarlyBook env.cfg A wiped hid s₃.freePartitionHdl.fu.dev.mem := by
    rw [Session.freePartitionHdl_dev]
    exact hb₃
  refine ⟨_, (createHidden_book ho he₃.freePartitionHdl hfree (by simp [hiddenIds]) heq₄).of_count ?_, fun x hx => ?_⟩
  · rw [Session.freePartitionHdl_cxt, hc₃]
    exact hc₁
  · rw [List.mem_singleton.mp hx, takenEntry_imageId]
    rfl

/-- All that is taken over. -/
theorem prepareFs_book (hL : Layout env.cfg fu₀ A) (ho : A.OffFwds) (he : Early A fu₀.dev s)
    (h : EarlyBook env.cfg A wiped [] s.fu.dev.mem) (hc : s.cxt.hiddenImagesCount = 0)
    (heq : prepareFs env s = (.ok (), s')) :
    ∃ hid, EarlyBook env.cfg A wiped hid s'.fu.dev.mem ∧ s'.cxt.hiddenImagesCount = hid.length ∧
      TakenOver env.cfg (fu₀.dev.mem.fwd A.active) hid := by
  obtain ⟨u, s₁, h₁, heq⟩ := Cmd.bind_eq_ok heq
  have hfirst : ∃ hid, Adds env.cfg A wiped [] hid s s₁ ∧ Early A fu₀.dev s₁ ∧ (env.cfg.noFs = false →
      ∃ i e, findEntry (fu₀.dev.mem.fwd A.active) fs1ImgId = some (i, e) ∧ hid = [takenEntry fs2ImgId (clientOf 0 i e)]) := by
    rw [Cmd.when] at h₁
    split at h₁
    · obtain ⟨i, e, hf, ht⟩ := prepareFs2_book hL ho he h h₁
      exact ⟨_, ht, prepareFs2_early.ok he h₁, fun _ => ⟨i, e, hf, rfl⟩⟩
    · rename_i hn
      cases h₁
      exact ⟨[], h.adds_nil, he, fun hc => absurd hc hn⟩
  obtain ⟨hid₁, ht₁, he₁, hfs⟩ := hfirst
  obtain ⟨u, s₂, h₂, heq⟩ := Cmd.bind_eq_ok heq
  obtain ⟨ram, ht₂, hram⟩ := prepareRamdump_book hL ho he₁ ht₁.book h₂
  have he₂ := (prepareRamdump_early hL).ok he₁ h₂
  obtain ⟨u, s₃, h₃, heq⟩ := Cmd.bind_eq_ok heq
  obtain ⟨user, ht₃, huser⟩ := prepareUserdata_book ho he₂ ht₂.book h₃
  cases heq
  refine ⟨hid₁ ++ ram ++ user, ht₃.book, ?_, fun hn => ?_⟩
  · show s₃.cxt.hiddenImagesCount = _
    rw [ht₃.count, ht₂.count, ht₁.count, hc, List.length_append, List.length_append]
    omega
  · obtain ⟨i, e, hf, rfl⟩ := hfs hn
    refine ⟨i, e, ram ++ user, hf, by rw [List.append_assoc]; rfl, fun x hx => ?_⟩
    rcases List.mem_append.mp hx with hx | hx
    · rw [hram x hx]
      exact List.mem_cons_self
    · rw [huser x hx]
      exact List.mem_cons_of_mem _ List.mem_cons_self

end

/-! ### The header -/

/-- What the header programs, off version and number of images. -/
theorem head_flash (m : Mem) (t : ℕ) (hdr : ImageSetHdr) (hidden : ℕ) {x : ℕ}
    (hx : x < t * 4096 + 4 ∨ t * 4096 + 32 ≤ x) :
    (replay Mem.app m (headWrites t hdr hidden)).flash x = m.flash.program (t * 4096) (le32 hdr.magic) x := by
  simp only [headWrites, infoWrites_eq, List.cons_append, List.nil_append, replay_cons, replay_nil]
  generalize (hdr.numImages + hidden) % 256 = n
  generalize t * 4096 = a at *
  have h₁ : ∀ m : Memory, m.program (a + 13) [UInt8.ofNat n] x = m x :=
    fun m => Memory.program_out (by rw [List.length_singleton]; omega)
  have h₂ : ∀ m : Memory, m.program (a + 4) (le32 hdr.version) x = m x :=
    fun m => Memory.program_out (by rw [length_le32]; omega)
  exact (h₁ _).trans (h₂ _)

theorem head_flash_above (m : Mem) (t : ℕ) (hdr : ImageSetHdr) (hidden : ℕ) {x : ℕ} (hx : t * 4096 + 4096 ≤ x) :
    (replay Mem.app m (headWrites t hdr hidden)).flash x = m.flash x := by
  rw [head_flash m t hdr hidden (.inr (Nat.le_trans (Nat.add_le_add_left (by decide) _) hx))]
  refine Memory.program_out (.inr ?_)
  rw [length_le32]
  exact Nat.le_trans (Nat.add_le_add_left (by decide) _) hx

/-- The number of images that the header programs. -/
theorem head_flash_total (m : Mem) (t : ℕ) (hdr : ImageSetHdr) (hidden : ℕ) (hm : m.flash (t * 4096 + 13) = 0xFF) :
    (replay Mem.app m (headWrites t hdr hidden)).flash (t * 4096 + 13) = UInt8.ofNat ((hdr.numImages + hidden) % 256) := by
  simp only [headWrites, infoWrites_eq, List.cons_append, List.nil_append, replay_cons, replay_nil]
  generalize (hdr.numImages + hidden) % 256 = n
  generalize t * 4096 = a at *
  have h₁ : (m.flash.program a (le32 hdr.magic)) (a + 13) = 0xFF := by
    rw [Memory.program_out (.inr (by rw [length_le32]; omega)), hm]
  have h₂ : ((m.flash.program a (le32 hdr.magic)).program (a + 4) (le32 hdr.version)) (a + 13) = 0xFF := by
    rw [Memory.program_out (.inr (by rw [length_le32]; omega)), h₁]
  exact Memory.program_in (i := 0) (Nat.one_pos) h₂

/-- The front that the header `hdr` gives a FWD with `hidden` partitions taken over. -/
def ImageSetHdr.front (hdr : ImageSetHdr) (hidden : ℕ) : Front := ⟨hdr.magic, (hdr.numImages + hidden) % 256⟩

/-- The front is programmed, the entries stay. -/
theorem Lists.head {m : Mem} {t : ℕ} {hid : List ImageEntry} (h : Lists (m.fwd t) blankFront hid) (hdr : ImageSetHdr)
    (hidden : ℕ) (hm : hdr.magic < 2 ^ 32) :
    Lists ((replay Mem.app m (headWrites t hdr hidden)).fwd t) (hdr.front hidden) hid := by
  have hff : ∀ i < 4, m.flash (t * 4096 + i) = 0xFF := Memory.word_ff h.signature
  have htotal := head_flash_total m t hdr hidden (UInt8.toNat_inj.mp h.total)
  have hlater := fun x => head_flash m t hdr hidden (x := x)
  generalize replay Mem.app m (headWrites t hdr hidden) = m' at hlater htotal
  refine ⟨?_, ?_, h.length, fun k hk => ?_, h.used⟩
  · show m'.flash.word (t * 4096) = _
    refine word_of_le32 hm fun i hi => ?_
    rw [hlater _ (.inl (Nat.add_lt_add_left hi _))]
    exact Memory.program_in (by rw [length_le32]; exact hi) (hff i hi)
  · show (m'.flash (t * 4096 + 13)).toNat = (hdr.numImages + hidden) % 256
    rw [htotal, UInt8.toNat_ofNat']
    exact Nat.mod_eq_of_lt (Nat.mod_lt _ (by decide))
  · rw [← h.entries k hk, fwd_entry _ _ hk, fwd_entry _ _ hk, Option.some.injEq]
    refine ImageEntry.decode_congr fun i hi => ?_
    rw [hlater _ (.inr (by omega)), Memory.program_out (.inr (by rw [length_le32]; omega))]

/-- The head after the header `b`; `m₀` is the memory before the session. -/
structure Announced (cfg : Config) (m₀ : Mem) (A : Area) (b : Bytes) (hid : List ImageEntry) (H : Head) : Prop where
  hdrs : H.imageHdr = (imageHdrs b (ImageSetHdr.decode b).numImages).map ImageHdr.adjust
  total : H.total = (ImageSetHdr.decode b).numImages
  format : H.format = (ImageSetHdr.decode b).format
  hidden : ∀ e ∈ hid, e.imageId ∈ hiddenIds
  taken : TakenOver cfg (m₀.fwd A.active) hid
  count : H.hidden = hid.length
  sbl : ∃ size, fwUpgradeSelectSblTrialFde cfg m₀.fdt = some (H.sblIdx, A.sbl.start, size)
  isFirst : H.isFirst = false
  flags : H.format ≠ formatPartialUpgrade → ∀ i, H.flag i = true
  counted : ∀ i h, H.imageHdr[i]? = some h → H.flag i = false → h.Counted

/-- If the next pass of the worker accepts a header, it has `P`. -/
def Session.HeaderIs (env : Env) (P : Bytes → Prop) (s : Session) : Prop :=
  s.cxt.state = .processConfigFile → s.cxt.HeaderComplete → s.Acceptable env s.cxt.header → P s.cxt.header

/-- The same, where `P` is also about the number of partitions taken over. -/
def Session.HeaderHas (env : Env) (P : ℕ → Bytes → Prop) (s : Session) : Prop :=
  s.cxt.state = .processConfigFile → s.cxt.HeaderComplete → s.Acceptable env s.cxt.header →
    P s.cxt.hiddenImagesCount s.cxt.header

/-- An image is passed over only if it is one that the session counts. -/
theorem downloadFlags_counted (env : Env) (active : ℕ) : ∀ (hs : List ImageHdr) (fu : Fu) (i : ℕ) (h : ImageHdr),
    hs[i]? = some h → (downloadFlags env active hs fu).1[i]? = some false → h.Counted
  | x :: hs, fu, 0, h, hi, hf => by
    cases hi
    by_contra hc
    rw [downloadFlags, needDownload, if_neg hc] at hf
    cases hf
  | x :: hs, fu, i + 1, h, hi, hf => downloadFlags_counted env active hs (needDownload env active x fu).2 i h hi hf

theorem length_downloadFlags (env : Env) (active : ℕ) : ∀ (hs : List ImageHdr) (fu : Fu),
    (downloadFlags env active hs fu).1.length = hs.length
  | [], _ => rfl
  | h :: hs, fu => congrArg (· + 1) (length_downloadFlags env active hs (needDownload env active h fu).2)

section

variable {env : Env} {fu₀ : Fu} {A : Area} {s s' : Session} {wiped : Prop} {hid : List ImageEntry}
  {P : ℕ → Bytes → Prop}

/-- The header, complete or not. -/
theorem processConfigFile_book (hL : Layout env.cfg fu₀ A) (ho : A.OffFwds) (hE : Early A fu₀.dev s)
    (h : EarlyBook env.cfg A True hid s.fu.dev.mem) (hh : Hides env.cfg (fu₀.dev.mem.fwd A.active) hid s.cxt)
    (hst : s.cxt.state = .processConfigFile) (hP : s.HeaderHas env P)
    (heq : fwUpgradeProcessConfigFile env s = (.ok (), s')) :
    (s'.cxt.isFirst = true ∧ s'.cxt.state = .receiveData ∧ s'.fu.dev.mem = s.fu.dev.mem ∧
      s'.cxt.hiddenImagesCount = s.cxt.hiddenImagesCount) ∨
    (∃ b, P s'.cxt.head.hidden b ∧ Announced env.cfg fu₀.dev.mem A b hid s'.cxt.head ∧
      Accounted env A s'.cxt.head ((ImageSetHdr.decode b).front s'.cxt.head.hidden) hid s') := by
  have hF := hE.fresh
  rcases receiveConfig_cases hF.collected with ⟨e, f, hrc⟩ | ⟨d, hrc, -, f, b, n, hd⟩ |
    ⟨d, hrc, hcomp, hcor, b, o, n, hd⟩
  · rw [fwUpgradeProcessConfigFile, hrc] at heq
    cases heq
  · rw [fwUpgradeProcessConfigFile, hrc] at heq
    cases heq
    rw [hd]
    exact .inl ⟨hF.isFirst, rfl, rfl, rfl⟩
  right
  rcases processConfigFile_complete env hrc with ⟨-, e, c', ws, he, -⟩ | ⟨ha, i, start, size, hsel, -, he⟩
  · rw [he] at heq
    cases heq
  rw [he] at heq
  generalize hb : s.cxt.header = hdr at *
  have hp : P s.cxt.hiddenImagesCount hdr := by
    rw [← hb]
    refine hP hst hcomp ?_
    rw [hd] at ha
    rw [hb]
    exact ha
  set u := ({ s with cxt := d } : Session).configured hdr i start size with hu
  have hmem : u.fu.dev.mem = replay Mem.app s.fu.dev.mem
      (headWrites A.trial (ImageSetHdr.decode hdr) s.cxt.hiddenImagesCount) := by
    rw [hu, ← hF.trial, hd]
    rfl
  have hlists := h.lists.head (ImageSetHdr.decode hdr) s.cxt.hiddenImagesCount (wordAt_lt _ _)
  rw [← hmem] at hlists
  have hblank : ∀ p, FsBlank env.cfg A p u.fu.dev.mem [] := by
    intro p hn _ _ x hx
    rw [← h.blank hn trivial x hx, hmem]
    exact head_flash_above _ _ _ _ (ho.above hE.grown.1 A.fs2_data hx)
  have hidx : u.cxt.imageIndex = 0 := by
    rw [hu, hd]
    exact hF.index
  have hwl : u.cxt.imageWrtLength = 0 := by
    rw [hu, hd]
    exact hF.wrtLength
  have hroom : u.cxt.trialMemStart ≤ A.mem.start + A.mem.size := by
    rw [hu, hd]
    show s.cxt.trialMemStart ≤ _
    rw [hF.memStart]
    exact Nat.le_add_right _ _
  have hhid : u.cxt.hiddenImagesCount = s.cxt.hiddenImagesCount := by
    rw [hu, hd]
    rfl
  have hann : ∀ c : Cxt, c.imageHdr = u.cxt.imageHdr → c.totalImages = u.cxt.totalImages → c.format = u.cxt.format →
      c.trialSblIdx = u.cxt.trialSblIdx → c.hiddenImagesCount = u.cxt.hiddenImagesCount → c.isFirst = false →
      (c.format ≠ formatPartialUpgrade → ∀ i, c.downloadFlag i = true) →
      (∀ i h, u.cxt.imageHdr[i]? = some h → c.downloadFlag i = false → h.Counted) →
      Announced env.cfg fu₀.dev.mem A hdr hid c.head := by
    intro c h₁ h₂ h₃ h₄ h₅ h₆ h₇ h₈
    refine ⟨h₁, h₂, ?_, h.hidden, hh.taken (by simp [hst]), h₅.trans (hhid.trans hh.count), ⟨size, ?_⟩, h₆, h₇,
      fun i x hx => h₈ i x (by rw [← h₁]; exact hx)⟩
    · rw [Cxt.head, h₃, hu, hd]
      rfl
    · rw [Cxt.head, h₄, hu]
      rw [hE.grown.fdt] at hsel
      have hs : A.sbl.start = start := by
        rw [hL.area.sblStart]
        simp only [sessionArea, sblSlot, hsel]
      rw [hs]
      exact hsel
  rw [← hhid] at hp hlists
  rw [nextStage] at heq
  split at heq
  · cases heq
    have hfl : ∀ i, u.cxt.downloadFlag i = true := by
      rw [hu, hd]
      exact hF.flags
    have hno : ∀ (i : ℕ) (h : ImageHdr), u.cxt.imageHdr[i]? = some h → u.cxt.downloadFlag i = false → h.Counted := by
      intro i h _ hf
      rw [hfl i] at hf
      cases hf
    refine ⟨hdr, hp, hann _ rfl rfl rfl rfl rfl rfl (fun _ => hfl) hno, .idle [] rfl hwl ?_
      ⟨ledger_nil hidx, ?_, hblank _, hroom⟩⟩
    · simp only [Cxt.Going, Session.setCxt]
      split <;> exact ⟨State.noConfusion, State.noConfusion⟩
    · rw [List.map_nil, List.append_nil]
      exact hlists
  · rename_i hpart
    cases heq
    have hdev : (downloadFlags env u.activeFwd u.cxt.imageHdr u.fu).2.dev = u.fu.dev := downloadFlags_dev _ _ _ _
    refine ⟨hdr, hp, hann _ rfl rfl rfl rfl rfl rfl (absurd · hpart) ?_,
      .idle [] rfl hwl ⟨State.noConfusion, State.noConfusion⟩ ⟨ledger_nil hidx, ?_, ?_, hroom⟩⟩
    · intro i h hi hf
      obtain ⟨hlt, -⟩ := List.getElem?_eq_some_iff.mp hi
      refine downloadFlags_counted env u.activeFwd u.cxt.imageHdr u.fu i h hi ?_
      rw [← length_downloadFlags env u.activeFwd u.cxt.imageHdr u.fu] at hlt
      rw [List.getElem?_eq_getElem hlt, ← hf]
      exact congrArg some (List.getD_eq_getElem _ _ hlt).symm
    · rw [List.map_nil, List.append_nil]
      show Lists (Mem.fwd (downloadFlags env u.activeFwd u.cxt.imageHdr u.fu).2.dev.mem A.trial) _ _
      rw [hdev]
      exact hlists
    · show FsBlank _ _ _ (downloadFlags env u.activeFwd u.cxt.imageHdr u.fu).2.dev.mem _
      rw [hdev]
      exact hblank _

/-! ### Looking for the next image -/

/-- All images are downloaded, so none is passed over. -/
theorem nextDownload_all {flag : ℕ → Bool} (h : ∀ i, flag i = true) (index total : ℕ) :
    nextDownload flag index total = index := by
  obtain ⟨hle, -, hskip⟩ := nextDownload_spec flag index total
  by_contra hne
  by_cases ht : index < total
  · have := hskip index (Nat.le_refl _) (by omega) ht
    rw [h] at this
    cases this
  · apply hne
    rw [nextDownload, Nat.sub_eq_zero_of_le (by omega)]
    exact max_eq_left (by omega)

variable {H : Head} {sig : Front}

/-- Images that did not change are passed over, and an FS1 without bytes is placed at once. -/
theorem prepareConnect_accounted (hL : Layout env.cfg fu₀ A) (ho : A.OffFwds) (hb : Busy env A fu₀.dev s)
    (hst : s.cxt.state = .prepareConnect) (hw : s.cxt.imageWrtLength = 0) (h : Accounted env A H sig hid s)
    (heq : prepareConnect env s = (.ok (), s')) : Accounted env A H sig hid s' := by
  cases h with
  | filling items k hH hne hs h ha => exact absurd hw hne
  | idle items hH _ hs h =>
  obtain ⟨hle, hnext, hskip⟩ := nextDownload_spec s.cxt.downloadFlag s.cxt.imageIndex s.cxt.totalImages
  rw [prepareConnect, Cmd.bind_ok (Cmd.gets_apply _ _), if_neg (by simp [hb.placing.isFirst]),
    Cmd.bind_ok (Cmd.modify_apply _ _), Cmd.bind_ok (Cmd.gets_apply _ _)] at heq
  set i := nextDownload s.cxt.downloadFlag s.cxt.imageIndex s.cxt.totalImages with hi
  generalize hs₁ : (s.setCxt fun c => { c with
    imageIndex := nextDownload c.downloadFlag c.imageIndex c.totalImages }) = s₁ at heq
  have hc₁ : s₁.cxt = { s.cxt with imageIndex := i } := by rw [← hs₁]; rfl
  have hfu₁ : s₁.fu = s.fu := by rw [← hs₁]; rfl
  have hv₁ : s₁.verified = s.verified := by rw [← hs₁]; rfl
  have hmem : s₁.cxt.trialMemStart ≤ A.mem.start + A.mem.size := by
    rw [hc₁]
    exact Nat.le_trans (Nat.le_add_right _ _) hb.placing.budget
  have hidle : Idle env A sig hid items s₁ := by
    refine ⟨?_, ?_, ?_, hmem⟩ <;> rw [hc₁, hfu₁]
    · rw [hv₁]
      refine h.ledger.skip hle (fun hf => ?_) hskip
      rw [hi]
      exact nextDownload_all (hb.placing.flags hf) _ _
    · exact h.lists
    · exact h.blank
  have hH₁ : s₁.cxt.head = H := by
    rw [hc₁]
    exact hH
  have hw₁ : s₁.cxt.imageWrtLength = 0 := by
    rw [hc₁]
    exact hw
  split at heq
  · rename_i hempty
    obtain ⟨u, s₂, h₂, heq⟩ := Cmd.bind_eq_ok heq
    have hg₁ : Grown A fu₀.dev s₁.fu.dev := by rw [hfu₁]; exact hb.grown
    have ht₁ : s₁.cxt.trialFwdIdx = A.trial := by rw [hc₁]; exact hb.placing.trial
    obtain ⟨k, fu', rfl, hop, htab⟩ := createFs1_ok hL hg₁ ht₁ hidle.lists hempty.1 h₂
    cases heq
    have htaken : ((s₁.cxt.plan env).hdr (s₁.cxt.plan env).index).taken = 0 := if_pos (.inl hempty.1)
    have hlo : A.mem.start ≤ s₁.cxt.trialMemStart := by
      rw [hc₁]
      exact hb.placing.start_le
    have hflag : s₁.cxt.imageIndex < s₁.cxt.totalImages → s₁.cxt.downloadFlag s₁.cxt.imageIndex = true := by
      rw [hc₁]
      exact hnext
    have hadd := (hidle.ledger.table ho hg₁.1 hmem htab).add (d := []) (fun _ => hempty) hflag hlo hempty.2.symm
      (Nat.zero_le _) (fun x (hx : x ∈ s₁.verified) => hx) (fun hne => absurd rfl hne) (fun _ _ => rfl)
    rw [htaken] at hadd
    refine .idle (items ++ [⟨s₁.cxt.imageIndex, s₁.cxt.trialMemStart, []⟩]) ?_ ?_ ?_ ⟨?_, ?_, ?_, ?_⟩
    · simp only [Session.setCxt, Session.freePartitionHdl_cxt]
      exact hH₁
    · simp only [Session.setCxt, Session.freePartitionHdl_cxt]
      exact hw₁
    · simp only [Cxt.Going, Session.setCxt, Session.freePartitionHdl_cxt, hc₁, hst]
      exact ⟨State.noConfusion, State.noConfusion⟩
    · simp only [Session.setCxt, Session.freePartitionHdl_cxt, Session.freePartitionHdl_dev, Session.freePartitionHdl_verified]
      exact hadd
    · simp only [Session.setCxt, Session.freePartitionHdl_cxt, Session.freePartitionHdl_dev, List.map_append,
        ← List.append_assoc]
      exact hop.lists
    · simp only [Session.setCxt, Session.freePartitionHdl_cxt, Session.freePartitionHdl_dev]
      intro hn hdj hit
      exact hidle.blank.table ho hg₁.1 htab hn hdj fun it hmem => hit it (List.mem_append_left _ hmem)
    · simp only [Session.setCxt, Session.freePartitionHdl_cxt]
      exact hmem
  · cases heq
    refine .idle items hH₁ hw₁ ?_ ⟨hidle.ledger, hidle.lists, hidle.blank, hidle.room⟩
    simp only [Cxt.Going, Session.setState, Session.setCxt]
    split <;> exact ⟨State.noConfusion, State.noConfusion⟩

end

end Qcc730.Upgrade
