import Qcc730.Upgrade.Erasure

/-! Erase before program, over whole sessions.

    A watched session carries what the code does not record: the place of the current image, from which write of
    the log on it is the current one, the bytes received for it, and what `ERASE_SECOND_FS` erased. A pass is one
    round of the loop of `fw_upgrade_process_receive_image`. Its writes to the image are in order and a completed
    image reads back as it was received, unless an FS1 image finds its first block in use, a suspended session is
    resumed on another entry with the image's id, or a session that failed is kept by a suspend. -/

namespace Qcc730.Upgrade
open Lib Flash

/-- A session and what is known about its current image. -/
structure Watch where
  session : Session
  /-- the place that `ERASE_SECOND_FS` erased, by the writes `fsFrom` to `fsTo` of the log -/
  secondFs : Range
  fsFrom : ℕ
  fsTo : ℕ
  /-- the place of the current image, whose partition was created by write `created - 1` -/
  place : Spot
  created : ℕ
  /-- the bytes received for the current image -/
  received : Bytes

namespace Watch

def start (s : Session) : Watch where
  session := s
  secondFs := ⟨0, 0⟩
  fsFrom := s.fu.dev.log.length
  fsTo := s.fu.dev.log.length
  place := ⟨0, 0, 0⟩
  created := s.fu.dev.log.length
  received := []

def log (w : Watch) : List Write := w.session.fu.dev.log

/-- The header of the current image. -/
def hdr (env : Env) (w : Watch) : ImageHdr := w.session.cxt.hdrAt env w.session.cxt.imageIndex

/-- One round of the loop. Without an open image it creates the partition of the next one, which is the first write
    it makes. -/
def pass (env : Env) (w : Watch) : Watch :=
  if w.session.cxt.imageWrtLength = 0 then
    { w with
      session := (receivePass env w.session).2
      place := w.session.imageSpot (w.hdr env)
      created := w.log.length + 1
      received := { w.session.cxt with imageWrtCount := 0, imageWrtLength := (w.hdr env).imageLength }.piece }
  else
    { w with
      session := (receivePass env w.session).2
      received := w.received ++ w.session.cxt.piece }

/-- The loop of `fw_upgrade_process_receive_image`, watched. -/
def loop (env : Env) : ℕ → Watch → Watch
  | 0, w => w
  | n + 1, w => if (receivePass env w.session).1 = .ok true then loop env n (w.pass env) else w.pass env

/-- The states at the head of the loop. -/
def rounds (env : Env) : ℕ → Watch → List Watch
  | 0, _ => []
  | n + 1, w => w :: if (receivePass env w.session).1 = .ok true then rounds env n (w.pass env) else []

/-- The next pending request takes effect. -/
def poll (w : Watch) : Watch := { w with session := w.session.poll }

/-- The worker is about to enter the switch in state `t`. -/
def Enters (w : Watch) (t : State) : Prop :=
  w.session.phase = .process ∧ w.poll.session.cxt.sessionStatus = .running ∧ w.session.cxt.state = t

instance (w : Watch) (t : State) : Decidable (w.Enters t) := inferInstanceAs (Decidable (_ ∧ _ ∧ _))

/-- The bound of the loop in `fwUpgradeProcessReceiveImage`. -/
def fuel (w : Watch) : ℕ := w.session.cxt.buffer.length + w.session.cxt.totalImages + 2

/-- The loop heads of the worker's next pass. -/
def heads (env : Env) (w : Watch) : List Watch := if w.Enters .processImage then w.poll.rounds env w.fuel else []

/-- One pass of the worker, watched. -/
def step (env : Env) (w : Watch) : Watch :=
  if w.Enters .processImage then { w.poll.loop env w.fuel with session := w.session.step env }
  else if w.Enters .eraseSecondFs then
    { w with
      session := w.session.step env
      secondFs := w.session.activeFs2
      fsFrom := w.log.length
      fsTo := (w.session.step env).fu.dev.log.length }
  else { w with session := w.session.step env }

/-- The writes that may have erased a byte of the current image: those since its partition was created, and for FS1
    those of `ERASE_SECOND_FS`. -/
def Counts (w : Watch) (j : ℕ) : Prop :=
  w.created ≤ j ∨ w.place.imgId = fs1ImgId ∧ w.fsFrom ≤ j ∧ j < w.fsTo

/-- The pass from `w` erases before it programs: after the entry of a new image, each of its writes is in order; and
    an image that it completes reads back as it was received. -/
structure ErasesFirst (env : Env) (w : Watch) : Prop where
  inOrder : ∃ ws vs, (w.pass env).log = w.log ++ ws ++ vs ∧
    (w.session.cxt.imageWrtLength ≠ 0 → ws = []) ∧
    (w.session.cxt.imageWrtLength = 0 → ws = [] ∧ vs = [] ∨ ∃ a start, u32 start = (w.pass env).place.imgStart ∧
      ws = [.program a (newEntry (w.hdr env).imageId (w.hdr env).version start (w.pass env).place.imgSize).encode]) ∧
    AllInOrder (w.pass env).Counts (w.pass env).created (w.log ++ ws) vs
  readBack : ∀ g, (receivePass env w.session).1 = .ok g →
    (w.pass env).session.cxt.imageIndex ≠ w.session.cxt.imageIndex →
      Written (w.pass env).session.fu.dev.mem (w.pass env).place (w.pass env).received

/-- `ERASE_SECOND_FS` has erased the active FS2 and nothing has been programmed into its first block since. -/
structure SecondFsReady (w : Watch) : Prop where
  place : w.session.activeFs2 = w.secondFs
  apart : w.secondFs.start ≠ w.session.cxt.trialFwdIdx * 4096
  unprogrammed : ∀ x ∈ (⟨w.secondFs.start, 4096⟩ : Range), ¬ProgrammedSince w.fsTo w.log x

/-- An FS1 image with bytes is opened only where the second file system is ready for it. -/
def PassClear (env : Env) (w : Watch) : Prop :=
  w.session.cxt.imageWrtLength = 0 → (w.hdr env).imageId = fs1ImgId → (w.hdr env).imageLength ≠ 0 → w.SecondFsReady

/-! ### One pass -/

/-- Every byte of the second file system was erased by the writes of `ERASE_SECOND_FS`. -/
def FsErased (w : Watch) : Prop :=
  ∀ x ∈ w.secondFs, Vacant (fun j => w.fsFrom ≤ j ∧ j < w.fsTo) (w.log.take w.fsTo) x

/-- What holds of a watched session whatever it does. -/
structure Based (d₀ : Dev) (w : Watch) : Prop where
  ext : ∃ ws, w.session.fu.dev = d₀.writes ws
  fsFrom : d₀.log.length ≤ w.fsFrom
  fsTo : w.fsTo ≤ w.log.length
  created : d₀.log.length ≤ w.created

/-- What a pass without an error leaves. -/
structure Left (d₀ : Dev) (w : Watch) : Prop where
  based : w.Based d₀
  erased : w.FsErased
  lengths : ∀ h ∈ w.session.cxt.imageHdr, h.imageLength < 2 ^ 32
  buffer : w.session.cxt.buffer.length ≤ fwUpgradeBufSize
  some : w.session.cxt.buffer ≠ []
  isFirst : w.session.cxt.isFirst = false
  image : w.session.cxt.imageWrtLength = 0 ∨
    ImageOpen d₀ w.Counts w.created w.place w.received w.session ∧ w.session.Holds w.place ∧
      w.session.cxt.state = .processImage

/-- The head of the loop. -/
structure Head (d₀ : Dev) (w : Watch) : Prop extends w.Left d₀ where
  state : w.session.cxt.state = .processImage

section Pass

variable {env : Env} {d₀ : Dev} {w : Watch}

theorem Based.counts (h : w.Based d₀) {j : ℕ} (hj : w.Counts j) : d₀.log.length ≤ j := by
  have h₁ := h.created
  have h₂ := h.fsFrom
  rcases hj with hj | ⟨-, hj, -⟩ <;> omega

theorem Based.log_le (h : w.Based d₀) : d₀.log.length ≤ w.log.length := by
  obtain ⟨ws, hw⟩ := h.ext
  rw [log, hw, Dev.writes_log, List.length_append]
  omega

/-- More writes after those of `ERASE_SECOND_FS` change nothing about them. -/
theorem FsErased.grow (h : w.FsErased) {v : Watch} (hs : v.secondFs = w.secondFs) (hf : v.fsFrom = w.fsFrom)
    (ht : v.fsTo = w.fsTo) (hle : w.fsTo ≤ w.log.length) {ws : List Write} (hl : v.log = w.log ++ ws) : v.FsErased := by
  intro x hx
  rw [hf, ht, hl, List.take_append_of_le_length hle]
  exact h x (hs ▸ hx)

theorem Based.grow (h : w.Based d₀) {v : Watch} (hf : v.fsFrom = w.fsFrom) (ht : v.fsTo = w.fsTo)
    (hc : d₀.log.length ≤ v.created) {ws : List Write} (hd : v.session.fu.dev = w.session.fu.dev.writes ws) :
    v.Based d₀ := by
  refine ⟨?_, hf ▸ h.fsFrom, ?_, hc⟩
  · rw [hd]
    exact writes_ext h.ext ws
  · rw [ht, log, hd, Dev.writes_log, List.length_append]
    exact Nat.le_add_right_of_le h.fsTo

/-- Nothing is written. -/
theorem Based.keep (h : w.Based d₀) {v : Watch} (hf : v.fsFrom = w.fsFrom) (ht : v.fsTo = w.fsTo)
    (hc : d₀.log.length ≤ v.created) (hd : v.session.fu.dev = w.session.fu.dev) : v.Based d₀ := by
  have hnil : v.session.fu.dev = w.session.fu.dev.writes [] := hd.trans (Dev.writes_nil _).symm
  exact h.grow hf ht hc hnil

/-- The first block of a second file system that is ready is vacant. -/
theorem SecondFsReady.vacant (h : w.SecondFsReady) (he : w.FsErased) {v : Watch} (hf : v.fsFrom = w.fsFrom)
    (ht : v.fsTo = w.fsTo) (hid : v.place.imgId = fs1ImgId) {x : ℕ} (hx : w.session.activeFs2.start ≤ x)
    (hx' : x < w.session.activeFs2.start + 4096)
    (hs : x < w.session.activeFs2.start + w.session.activeFs2.size) : Vacant v.Counts w.log x := by
  rw [h.place] at hx hx' hs
  obtain ⟨j, e, hj, hget, hxe, hlate⟩ := he x (Range.mem_def.mpr ⟨hx, hs⟩)
  have hno := h.unprogrammed x (Range.mem_mk.mpr ⟨hx, hx'⟩)
  have hv : Vacant v.Counts (w.log.take w.fsTo) x := ⟨j, e, .inr ⟨hid, hf ▸ hj.1, ht ▸ hj.2⟩, hget, hxe, hlate⟩
  rw [← List.take_append_drop w.fsTo w.log]
  exact hv.append fun u hu hxu => hno ⟨u, hu, hxu⟩

/-- What is proved of one pass. -/
structure PassEnd (env : Env) (d₀ : Dev) (w : Watch) : Prop where
  first : w.ErasesFirst env
  based : (w.pass env).Based d₀
  left : ∀ g, (receivePass env w.session).1 = .ok g → (w.pass env).Left d₀
  stay : (receivePass env w.session).1 = .ok true → (w.pass env).session.cxt.state = .processImage

theorem PassEnd.head (h : PassEnd env d₀ w) (hg : (receivePass env w.session).1 = .ok true) : (w.pass env).Head d₀ :=
  ⟨h.left true hg, h.stay hg⟩

variable (env) in
theorem pass_of_open (hl : w.session.cxt.imageWrtLength ≠ 0) : w.pass env =
    { w with session := (receivePass env w.session).2, received := w.received ++ w.session.cxt.piece } := if_neg hl

variable (env) in
theorem pass_of_closed (hl : w.session.cxt.imageWrtLength = 0) : w.pass env =
    { w with
      session := (receivePass env w.session).2
      place := w.session.imageSpot (w.hdr env)
      created := w.log.length + 1
      received := { w.session.cxt with imageWrtCount := 0, imageWrtLength := (w.hdr env).imageLength }.piece } :=
  if_pos hl

/-- The buffer of an all-in-one file is used up. -/
abbrev Spent (c : Cxt) : Prop := c.format ≠ formatPartialUpgrade ∧ c.buffer.length ≤ c.bufOffset

theorem receivePass_spent {s : Session} (h : Spent s.cxt) : receivePass env s = (.ok false, s) := by
  rw [receivePass, Cmd.bind_ok (Cmd.gets_apply _ _), if_pos h]
  rfl

theorem receivePass_open {s : Session} (h : ¬Spent s.cxt) (hl : s.cxt.imageWrtLength ≠ 0) :
    receivePass env s = receivePiece env (s.cxt.hdrAt env s.cxt.imageIndex) s := by
  rw [receivePass, Cmd.bind_ok (Cmd.gets_apply _ _), if_neg h, if_neg hl]

theorem Spent.piece {c : Cxt} (h : Spent c) : c.piece = [] := by
  rw [Cxt.piece]
  split
  · rw [if_neg h.1, List.drop_eq_nil_of_le h.2, List.take_nil]
  · rfl

theorem rramOk_of_ext {d : Dev} (h : ∃ ws, d = d₀.writes ws) : d.rramOk = d₀.rramOk := by
  obtain ⟨ws, rfl⟩ := h
  rfl

/-- A pass that finds nothing to do. -/
theorem Head.pass_spent (h : w.Head d₀) (hs : Spent w.session.cxt) : PassEnd env d₀ w := by
  have heq : receivePass env w.session = (.ok false, w.session) := receivePass_spent hs
  have hlog := h.based.log_le
  by_cases hl : w.session.cxt.imageWrtLength = 0
  · have hp := pass_of_closed env hl
    rw [heq] at hp
    have hb : (w.pass env).Based d₀ := by
      rw [hp]
      exact h.based.keep rfl rfl (by show d₀.log.length ≤ w.log.length + 1; omega) rfl
    refine ⟨⟨⟨[], [], ?_, fun hne => absurd hl hne, fun _ => .inl ⟨rfl, rfl⟩, allInOrder_nil⟩, ?_⟩, hb, ?_, ?_⟩
    · rw [hp, List.append_nil, List.append_nil]
      rfl
    · intro g _ hne
      rw [hp] at hne
      exact absurd rfl hne
    · intro g _
      refine ⟨hb, ?_, ?_, ?_, ?_, ?_, .inl ?_⟩ <;> rw [hp]
      exacts [h.erased, h.lengths, h.buffer, h.some, h.isFirst, hl]
    · intro hg
      rw [heq] at hg
      cases hg
  · have hp := pass_of_open env hl
    rw [heq, hs.piece, List.append_nil] at hp
    have hw : w.pass env = w := hp
    refine ⟨⟨⟨[], [], ?_, fun _ => rfl, fun h0 => absurd h0 hl, allInOrder_nil⟩, ?_⟩, by rw [hw]; exact h.based, ?_, ?_⟩
    · rw [hw, List.append_nil, List.append_nil]
    · intro g _ hne
      rw [hw] at hne
      exact absurd rfl hne
    · intro g _
      rw [hw]
      exact h.toLeft
    · intro _
      rw [hw]
      exact h.state

/-- A pass that goes on with an open image. -/
theorem Head.pass_open (h : w.Head d₀) (hrram : ∀ a m, m ≤ fwUpgradeBufSize → d₀.rramOk a m = true → a + m < 2 ^ 32)
    (hs : ¬Spent w.session.cxt) (hl : w.session.cxt.imageWrtLength ≠ 0) : PassEnd env d₀ w := by
  obtain ⟨hO, hh, -⟩ := h.image.resolve_left hl
  have hoff : w.session.cxt.format ≠ formatPartialUpgrade → w.session.cxt.bufOffset < w.session.cxt.buffer.length :=
    fun hf => by
      by_contra hle
      exact hs ⟨hf, by omega⟩
  obtain ⟨ws, hdev, hord, hend⟩ := receivePiece_laid env (w.hdr env) hO (fun j => h.based.counts) (fun j => .inl)
    (by rw [rramOk_of_ext h.based.ext]; exact hrram) hh h.some h.buffer hoff h.state
  have heq : receivePass env w.session = receivePiece env (w.hdr env) w.session := receivePass_open hs hl
  rw [← heq] at hdev hend
  have hp := pass_of_open env hl
  have hlog : (w.pass env).log = w.log ++ ws := by
    rw [hp, log, hdev]
    rfl
  have hb : (w.pass env).Based d₀ := by
    rw [hp]
    exact h.based.grow rfl rfl h.based.created hdev
  refine ⟨⟨⟨[], ws, by rw [hlog, List.append_nil], fun _ => rfl, fun h0 => absurd h0 hl, ?_⟩, ?_⟩, hb, ?_, ?_⟩
  · rw [hp, List.append_nil]
    exact hord
  · intro g hg hne
    rw [hp] at hne ⊢
    rcases (hend g hg).image with ⟨-, hw⟩ | ⟨-, -, -, hi⟩
    · exact hw
    · exact absurd hi hne
  · intro g hg
    have he := hend g hg
    refine ⟨hb, h.erased.grow (by rw [hp]) (by rw [hp]) (by rw [hp]) h.based.fsTo hlog, ?_, ?_, ?_, ?_, ?_⟩ <;> rw [hp]
    · exact he.same.imageHdr ▸ h.lengths
    · exact he.same.buffer ▸ h.buffer
    · exact he.same.buffer ▸ h.some
    · exact he.same.isFirst.trans h.isFirst
    · rcases he.image with ⟨hz, -⟩ | ⟨hO', hh', hst', -⟩
      · exact .inl hz
      · exact .inr ⟨hO', hh', hst'⟩
  · intro hg
    rw [hp]
    exact (hend true hg).stay rfl

theorem closeImage_same (h : ImageHdr) (s : Session) : ∃ s', closeImage h s = (.ok (), s') ∧ s'.fu.dev = s.fu.dev ∧
    SameFile s.cxt s'.cxt ∧ s'.cxt.imageWrtLength = 0 ∧ s'.cxt.state = s.cxt.state := by
  have hcxt := Session.freePartitionHdl_cxt s
  refine ⟨_, rfl, s.freePartitionHdl_dev, ?_, rfl, ?_⟩
  · constructor <;> simp only [Session.setCxt, hcxt]
  · simp only [Session.setCxt, hcxt]

/-- An image without bytes is closed at once. -/
theorem closeEmpty_ends (h : ImageHdr) (s : Session) : ∃ g s',
    (closeImage h >>= fun _ => (Cmd.gets fun s => decide (s.cxt.totalImages ≤ s.cxt.imageIndex)) >>= fun b =>
      if b = true then (Cmd.modify fun s => s.setState .duplicateFs) >>= fun _ => pure false
      else pure true : Cmd Session FuStatus Bool) s = (.ok g, s') ∧ s'.fu.dev = s.fu.dev ∧ SameFile s.cxt s'.cxt ∧
      s'.cxt.imageWrtLength = 0 ∧ (g = true → s'.cxt.state = s.cxt.state) := by
  obtain ⟨s', heq, hdev, hsame, hzero, hst⟩ := closeImage_same h s
  rw [Cmd.bind_ok heq, Cmd.bind_ok (Cmd.gets_apply _ _)]
  split
  · exact ⟨false, _, rfl, hdev, ⟨hsame.imageHdr, hsame.buffer, hsame.isFirst, hsame.format⟩, hzero, fun hg => by cases hg⟩
  · exact ⟨true, _, rfl, hdev, hsame, hzero, fun _ => hst⟩

variable (env) in
theorem receivePass_new {s : Session} (h : ¬Spent s.cxt) (hl : s.cxt.imageWrtLength = 0) (x : ImageHdr)
    (hx : s.cxt.hdrAt env s.cxt.imageIndex = x) : receivePass env s = (openImage x >>= fun _ =>
      if s.cxt.format ≠ formatPartialUpgrade ∧ x.imageLength = 0 then
        closeImage x >>= fun _ => (Cmd.gets fun s => decide (s.cxt.totalImages ≤ s.cxt.imageIndex)) >>= fun b =>
          if b = true then (Cmd.modify fun s => s.setState .duplicateFs) >>= fun _ => pure false else pure true
      else (Cmd.modify fun s => s.setCxt fun c => { c with digest := [] }) >>= fun _ => receivePiece env x) s := by
  rw [receivePass, Cmd.bind_ok (Cmd.gets_apply _ _), if_neg h, if_pos hl, hx]

/-- The writes of a pass that opens an image: the entry, and what follows it in order. -/
theorem Head.new_writes (h : w.Head d₀) {hi : ℕ} (hl : w.session.cxt.imageWrtLength = 0)
    (hO : OpenEnd d₀ (w.pass env).Counts (w.hdr env) hi w.session (openImage (w.hdr env) w.session))
    (vs : List Write) (hdev : (receivePass env w.session).2.fu.dev = (openImage (w.hdr env) w.session).2.fu.dev.writes vs)
    (hord : AllInOrder (w.pass env).Counts (w.log.length + 1) (openImage (w.hdr env) w.session).2.fu.dev.log vs)
    (hfail : (openImage (w.hdr env) w.session).1 ≠ .ok () → vs = [])
    (hrb : ∀ g, (receivePass env w.session).1 = .ok g →
      (w.pass env).session.cxt.imageIndex ≠ w.session.cxt.imageIndex →
        Written (w.pass env).session.fu.dev.mem (w.pass env).place (w.pass env).received) :
    w.ErasesFirst env ∧ (w.pass env).Based d₀ ∧ ∃ us, (w.pass env).log = w.log ++ us := by
  have hp := pass_of_closed env hl
  have hlog₀ := h.based.log_le
  obtain ⟨⟨ws, hdev', hhead, hord'⟩, hopened⟩ := hO
  have hd : (w.pass env).session.fu.dev = w.session.fu.dev.writes (ws ++ vs) := by
    rw [hp, Dev.writes_append, ← hdev']
    exact hdev
  have hlog : (w.pass env).log = w.log ++ (ws ++ vs) := by
    rw [log, hd]
    rfl
  have hcr : (w.pass env).created = w.log.length + 1 := by rw [hp]
  have hpl : (w.pass env).place = w.session.imageSpot (w.hdr env) := by rw [hp]
  refine ⟨⟨⟨ws.take 1, ws.drop 1 ++ vs, ?_, fun hne => absurd hl hne, fun _ => ?_, ?_⟩, hrb⟩, ?_, _, hlog⟩
  · rw [hlog, List.append_assoc, ← List.append_assoc (ws.take 1), List.take_append_drop]
  · cases ws with
    | nil =>
      refine .inl ⟨rfl, ?_⟩
      rw [hfail fun hok => ?_]
      · rfl
      · have := (hopened hok).2.1.since
        rw [hdev', Dev.writes_nil] at this
        omega
    | cons u us =>
      obtain ⟨a, start, hst, hu⟩ := hhead u rfl
      refine .inr ⟨a, start, by rw [hpl]; exact hst, ?_⟩
      rw [hpl, ← hu]
      rfl
  · rw [hcr, allInOrder_append]
    refine ⟨hord', ?_⟩
    rw [List.append_assoc, List.take_append_drop]
    rw [hdev'] at hord
    exact hord
  · exact h.based.grow (by rw [hp]) (by rw [hp]) (by rw [hcr]; omega) hd

variable (env d₀ w) in
/-- The opening of the next image in a pass: its entry is written, and the image is laid open for its first block. -/
def OpensImage : Prop :=
  OpenEnd d₀ (w.pass env).Counts (w.hdr env) (if (w.hdr env).imageLength = 0 then 0 else 4096) w.session
    (openImage (w.hdr env) w.session)

theorem counts_created (hl : w.session.cxt.imageWrtLength = 0) (j : ℕ) (hj : w.log.length + 1 ≤ j) :
    (w.pass env).Counts j := by
  have hcr : (w.pass env).created = w.log.length + 1 := by rw [pass_of_closed env hl]
  exact .inl (hcr ▸ hj)

theorem Head.opensImage (h : w.Head d₀) (hclear : w.PassClear env) (hl : w.session.cxt.imageWrtLength = 0) :
    OpensImage env d₀ w := by
  have hp := pass_of_closed env hl
  refine openImage_laid _ h.based.ext (counts_created hl) (by split <;> omega) fun hfs y hy hy' hsz => ?_
  split at hy'
  · omega
  · rename_i hne
    have hr := hclear hl hfs hne
    have hpl : (w.pass env).place = w.session.imageSpot (w.hdr env) := by rw [hp]
    refine ⟨hr.place ▸ hr.apart, hr.vacant h.erased (by rw [hp]) (by rw [hp]) ?_ hy hy' hsz⟩
    rw [hpl, Session.imageSpot_imgId, hfs]

theorem Head.fsErased_new (h : w.Head d₀) (hl : w.session.cxt.imageWrtLength = 0)
    (hw : ∃ us, (w.pass env).log = w.log ++ us) : (w.pass env).FsErased := by
  have hp := pass_of_closed env hl
  obtain ⟨us, hus⟩ := hw
  exact h.erased.grow (by rw [hp]) (by rw [hp]) (by rw [hp]) h.based.fsTo hus

/-- A pass that fails when the image is open, or before, has nothing more to show. -/
theorem Head.pass_failed {e : FuStatus} {s' : Session} (h : w.Head d₀) (hl : w.session.cxt.imageWrtLength = 0)
    (hO : OpensImage env d₀ w) (he : receivePass env w.session = (.error e, s'))
    (hd : s'.fu.dev = (openImage (w.hdr env) w.session).2.fu.dev) : PassEnd env d₀ w := by
  obtain ⟨hf, hb, -⟩ := h.new_writes hl hO [] (by rw [he, hd, Dev.writes_nil]) allInOrder_nil (fun _ => rfl)
    (fun g hg => by rw [he] at hg; cases hg)
  refine ⟨hf, hb, fun g hg => ?_, fun hg => ?_⟩
  · rw [he] at hg
    cases hg
  · rw [he] at hg
    cases hg

theorem OpensImage.cxt {u : Unit} {s₁ : Session} (hO : OpensImage env d₀ w)
    (ho : openImage (w.hdr env) w.session = (.ok u, s₁)) :
    s₁.cxt = { w.session.cxt with
      imageWrtCount := 0, imageWrtLength := (w.hdr env).imageLength, partitionHdl := s₁.cxt.partitionHdl } := by
  have hc := (hO.opened (by rw [ho])).2.2
  rwa [ho] at hc

theorem OpensImage.sameFile {u : Unit} {s₁ : Session} (hO : OpensImage env d₀ w)
    (ho : openImage (w.hdr env) w.session = (.ok u, s₁)) : SameFile w.session.cxt s₁.cxt := by
  constructor <;> rw [hO.cxt ho]

/-- A pass that opens an image without bytes and closes it. -/
theorem Head.pass_empty {u : Unit} {s₁ : Session} (h : w.Head d₀) (hl : w.session.cxt.imageWrtLength = 0)
    (hO : OpensImage env d₀ w) (ho : openImage (w.hdr env) w.session = (.ok u, s₁))
    (hempty : w.session.cxt.format ≠ formatPartialUpgrade ∧ (w.hdr env).imageLength = 0)
    (heq : receivePass env w.session =
      (closeImage (w.hdr env) >>= fun _ => (Cmd.gets fun s => decide (s.cxt.totalImages ≤ s.cxt.imageIndex)) >>= fun b =>
        if b = true then (Cmd.modify fun s => s.setState .duplicateFs) >>= fun _ => pure false else pure true) s₁) :
    PassEnd env d₀ w := by
  have hp := pass_of_closed env hl
  have hse : (w.pass env).session = (receivePass env w.session).2 := by rw [hp]
  have hsame₁ := hO.sameFile ho
  obtain ⟨g, s', hcl, hdev, hsame, hzero, hstay⟩ := closeEmpty_ends (w.hdr env) s₁
  rw [hcl] at heq
  have hrec : (w.pass env).received = [] := by
    rw [hp]
    simp only [Cxt.piece, Cxt.writeLen, if_neg hempty.1, hempty.2]
    rw [show u32sub 0 0 = 0 from rfl, Nat.min_zero, List.take_zero]
  obtain ⟨hf, hb, hus⟩ := h.new_writes hl hO [] (by rw [heq, ho, hdev, Dev.writes_nil]) allInOrder_nil
    (fun _ => rfl) (fun _ _ _ => by rw [hrec]; rfl)
  refine ⟨hf, hb, fun g' _ => ⟨hb, h.fsErased_new hl hus, ?_, ?_, ?_, ?_, .inl ?_⟩, fun hg => ?_⟩ <;> rw [hse, heq]
  · exact hsame.imageHdr ▸ hsame₁.imageHdr ▸ h.lengths
  · exact hsame.buffer ▸ hsame₁.buffer ▸ h.buffer
  · exact hsame.buffer ▸ hsame₁.buffer ▸ h.some
  · exact hsame.isFirst.trans (hsame₁.isFirst.trans h.isFirst)
  · exact hzero
  · rw [heq] at hg
    simp only [Except.ok.injEq] at hg
    rw [hstay hg, hO.cxt ho]
    exact h.state

/-- The first piece of a file of a partial upgrade that should be empty is refused. -/
theorem Head.piece_refused {u : Unit} {s₁ : Session} (h : w.Head d₀) (hO : OpensImage env d₀ w)
    (ho : openImage (w.hdr env) w.session = (.ok u, s₁)) (hf : w.session.cxt.format = formatPartialUpgrade)
    (hlen : (w.hdr env).imageLength = 0) :
    receivePiece env (w.hdr env) (s₁.setCxt fun c => { c with digest := [] }) =
      (.error .incorrectImageLength, s₁.setCxt fun c => { c with digest := [] }) := by
  have hpos : 0 < w.session.cxt.buffer.length := List.length_pos_iff.mpr h.some
  have hwl : (s₁.setCxt fun c => { c with digest := [] }).cxt.writeLen = .error .incorrectImageLength := by
    rw [show (s₁.setCxt fun c => { c with digest := [] }).cxt = { s₁.cxt with digest := [] } from rfl, hO.cxt ho,
      Cxt.writeLen]
    simp only [hf, hlen, if_true]
    rw [show u32sub 0 0 = 0 from rfl, if_pos hpos]
  rw [receivePiece, Cmd.bind_ok (Cmd.gets_apply _ _), hwl]
  rfl

/-- A pass that opens an image and writes its first piece. -/
theorem Head.pass_piece {u : Unit} {s₁ : Session} (h : w.Head d₀)
    (hpast : ∀ i, (env.pastEnd i).imageLength < 2 ^ 32)
    (hrram : ∀ a m, m ≤ fwUpgradeBufSize → d₀.rramOk a m = true → a + m < 2 ^ 32)
    (hs : ¬Spent w.session.cxt) (hl : w.session.cxt.imageWrtLength = 0) (hO : OpensImage env d₀ w)
    (ho : openImage (w.hdr env) w.session = (.ok u, s₁)) (hlen : (w.hdr env).imageLength ≠ 0)
    (heq : receivePass env w.session = receivePiece env (w.hdr env) (s₁.setCxt fun c => { c with digest := [] })) :
    PassEnd env d₀ w := by
  have hp := pass_of_closed env hl
  have hpl : (w.pass env).place = w.session.imageSpot (w.hdr env) := by rw [hp]
  have hcr : (w.pass env).created = w.log.length + 1 := by rw [hp]
  have hse : (w.pass env).session = (receivePass env w.session).2 := by rw [hp]
  have hxlt : (w.hdr env).imageLength < 2 ^ 32 := by
    rw [hdr, Cxt.hdrAt, List.getD_eq_getElem?_getD]
    rcases hi : w.session.cxt.imageHdr[w.session.cxt.imageIndex]? with _ | y
    · exact hpast _
    · exact h.lengths y (List.mem_of_getElem? hi)
  have hsame₁ := hO.sameFile ho
  have hc₁ := hO.cxt ho
  obtain ⟨hh₁, hl₁, -⟩ := hO.opened (by rw [ho])
  rw [ho] at hh₁ hl₁
  rw [if_neg hlen] at hl₁
  set s₂ : Session := s₁.setCxt fun c => { c with digest := [] } with hs₂
  have hc₂ : s₂.cxt = { s₁.cxt with digest := [] } := rfl
  have hO₂ : ImageOpen d₀ (w.pass env).Counts (w.log.length + 1) (w.session.imageSpot (w.hdr env)) [] s₂ := by
    refine ⟨?_, ?_, ?_, hl₁⟩ <;> rw [hc₂, hc₁]
    · rfl
    · exact Nat.pos_of_ne_zero hlen
    · exact hxlt
  have hext₂ : ∃ ws, s₂.fu.dev = d₀.writes ws := hl₁.ext
  have hbase : ∀ j, (w.pass env).Counts j → d₀.log.length ≤ j := by
    intro j hj
    have h₁ := h.based.log_le
    have h₂ := h.based.fsFrom
    have hfr : (w.pass env).fsFrom = w.fsFrom := by rw [hp]
    rw [Counts, hcr, hfr] at hj
    rcases hj with hj | ⟨-, hj, -⟩ <;> omega
  obtain ⟨vs, hdev, hord, hend⟩ := receivePiece_laid env (w.hdr env) hO₂ hbase (counts_created hl)
    (by rw [rramOk_of_ext hext₂]; exact hrram) hh₁ (by rw [hc₂, hc₁]; exact h.some) (by rw [hc₂, hc₁]; exact h.buffer)
    (by
      rw [hc₂, hc₁]
      intro hf
      by_contra hle
      exact hs ⟨hf, Nat.not_lt.mp hle⟩)
    (by rw [hc₂, hc₁]; exact h.state)
  rw [← heq] at hdev hend
  have hrec : (w.pass env).received = [] ++ s₂.cxt.piece := by
    rw [hp, hc₂, hc₁]
    rfl
  obtain ⟨hf, hb, hus⟩ := h.new_writes hl hO vs (by rw [ho]; exact hdev) (by rw [ho]; exact hord)
    (fun hne => absurd (by rw [ho]) hne) (fun g hg hne => by
      rw [hse] at hne ⊢
      rw [hpl, hrec]
      rcases (hend g hg).image with ⟨-, hw⟩ | ⟨-, -, -, hi⟩
      · exact hw
      · rw [hi, hc₂, hc₁] at hne
        exact absurd rfl hne)
  refine ⟨hf, hb, fun g hg => ⟨hb, h.fsErased_new hl hus, ?_, ?_, ?_, ?_, ?_⟩, fun hg => ?_⟩ <;> rw [hse]
  · exact (hend g hg).same.imageHdr ▸ hsame₁.imageHdr ▸ h.lengths
  · exact (hend g hg).same.buffer ▸ hsame₁.buffer ▸ h.buffer
  · exact (hend g hg).same.buffer ▸ hsame₁.buffer ▸ h.some
  · exact (hend g hg).same.isFirst.trans (hsame₁.isFirst.trans h.isFirst)
  · rcases (hend g hg).image with ⟨hz, -⟩ | ⟨hO', hh', hst', -⟩
    · exact .inl hz
    · rw [hpl, hcr, hrec]
      exact .inr ⟨hO', hh', hst'⟩
  · exact (hend true hg).stay rfl

/-- A pass that opens the next image. -/
theorem Head.pass_new (h : w.Head d₀) (hpast : ∀ i, (env.pastEnd i).imageLength < 2 ^ 32)
    (hrram : ∀ a m, m ≤ fwUpgradeBufSize → d₀.rramOk a m = true → a + m < 2 ^ 32) (hclear : w.PassClear env)
    (hs : ¬Spent w.session.cxt) (hl : w.session.cxt.imageWrtLength = 0) : PassEnd env d₀ w := by
  have hO := h.opensImage hclear hl
  have heq := receivePass_new env hs hl (w.hdr env) rfl
  rcases ho : openImage (w.hdr env) w.session with ⟨e | u, s₁⟩
  · rw [Cmd.bind_error ho] at heq
    exact h.pass_failed hl hO heq (by rw [ho])
  rw [Cmd.bind_ok ho] at heq
  by_cases hempty : w.session.cxt.format ≠ formatPartialUpgrade ∧ (w.hdr env).imageLength = 0
  · rw [if_pos hempty] at heq
    exact h.pass_empty hl hO ho hempty heq
  rw [if_neg hempty, Cmd.bind_ok (Cmd.modify_apply _ _)] at heq
  by_cases hlen : (w.hdr env).imageLength = 0
  · have hf : w.session.cxt.format = formatPartialUpgrade := by
      by_contra hne
      exact hempty ⟨hne, hlen⟩
    rw [h.piece_refused hO ho hf hlen] at heq
    exact h.pass_failed hl hO heq (by rw [ho]; rfl)
  · exact h.pass_piece hpast hrram hs hl hO ho hlen heq

/-- A pass at the head of the loop. -/
theorem Head.pass (h : w.Head d₀) (hpast : ∀ i, (env.pastEnd i).imageLength < 2 ^ 32)
    (hrram : ∀ a m, m ≤ fwUpgradeBufSize → d₀.rramOk a m = true → a + m < 2 ^ 32) (hclear : w.PassClear env) :
    PassEnd env d₀ w := by
  by_cases hs : Spent w.session.cxt
  · exact h.pass_spent hs
  by_cases hl : w.session.cxt.imageWrtLength = 0
  · exact h.pass_new hpast hrram hclear hs hl
  · exact h.pass_open hrram hs hl

end Pass

/-! ### The loop -/

section Run

variable {env : Env} {d₀ : Dev} {w : Watch}

theorem loop_session (n : ℕ) (w : Watch) : (w.loop env n).session = (receiveLoop env n w.session).2 := by
  have hpass : ∀ v : Watch, (v.pass env).session = (receivePass env v.session).2 := by
    intro v
    rw [pass]
    split <;> rfl
  induction n generalizing w with
  | zero => rfl
  | succ n ih =>
    rw [loop, receiveLoop]
    rcases hr : receivePass env w.session with ⟨e | g, s'⟩
    · rw [Cmd.bind_error hr, if_neg (by simp), hpass, hr]
    · rw [Cmd.bind_ok hr]
      cases g with
      | true => rw [if_pos rfl, if_pos rfl, ih, hpass, hr]
      | false =>
        rw [if_neg (by simp), if_neg (by simp), hpass, hr]
        rfl

/-- What the loop leaves. -/
structure LoopEnd (env : Env) (d₀ : Dev) (n : ℕ) (w : Watch) : Prop where
  first : ∀ v ∈ w.rounds env n, v.ErasesFirst env
  based : (w.loop env n).Based d₀
  left : (receiveLoop env n w.session).1 = .ok () → (w.loop env n).Left d₀

/-- Every round of the loop erases before it programs. -/
theorem Head.loop (hpast : ∀ i, (env.pastEnd i).imageLength < 2 ^ 32)
    (hrram : ∀ a m, m ≤ fwUpgradeBufSize → d₀.rramOk a m = true → a + m < 2 ^ 32) :
    ∀ (n : ℕ) {w : Watch}, w.Head d₀ → (∀ v ∈ w.rounds env n, v.PassClear env) → LoopEnd env d₀ n w
  | 0, w, h, _ => ⟨fun _ hv => (List.not_mem_nil hv).elim, h.based, fun _ => h.toLeft⟩
  | n + 1, w, h, hclear => by
    have hp := h.pass hpast hrram (hclear w List.mem_cons_self)
    rcases hr : receivePass env w.session with ⟨e | g, s'⟩
    · have hne : ¬(receivePass env w.session).1 = .ok true := by rw [hr]; simp
      refine ⟨?_, ?_, fun hok => ?_⟩
      · intro v hv
        rw [rounds, if_neg hne, List.mem_singleton] at hv
        exact hv ▸ hp.first
      · rw [Watch.loop, if_neg hne]
        exact hp.based
      · rw [receiveLoop, Cmd.bind_error hr] at hok
        cases hok
    cases g with
    | true =>
      have hg : (receivePass env w.session).1 = .ok true := by rw [hr]
      have hsess : (w.pass env).session = s' := by
        rw [Watch.pass, hr]
        split <;> rfl
      have ih := Head.loop hpast hrram n (hp.head hg) fun v hv => hclear v (by
        rw [rounds, if_pos hg]
        exact List.mem_cons_of_mem _ hv)
      refine ⟨?_, ?_, fun hok => ?_⟩
      · intro v hv
        rw [rounds, if_pos hg] at hv
        rcases List.mem_cons.mp hv with rfl | hv
        · exact hp.first
        · exact ih.first v hv
      · rw [Watch.loop, if_pos hg]
        exact ih.based
      · rw [Watch.loop, if_pos hg]
        refine ih.left ?_
        rw [receiveLoop, Cmd.bind_ok hr, if_pos rfl] at hok
        rw [hsess]
        exact hok
    | false =>
      have hne : ¬(receivePass env w.session).1 = .ok true := by rw [hr]; simp
      refine ⟨?_, ?_, fun _ => ?_⟩
      · intro v hv
        rw [rounds, if_neg hne, List.mem_singleton] at hv
        exact hv ▸ hp.first
      · rw [Watch.loop, if_neg hne]
        exact hp.based
      · rw [Watch.loop, if_neg hne]
        exact hp.left false (by rw [hr])

/-! ### The worker -/

/-- The session may still go on. -/
def Alive (s : Session) : Prop :=
  s.phase = .process ∨ s.phase = .finalize (.ok ()) ∨ (∃ r, s.phase = .done r) ∧ s.cxt.sessionStatus = .suspend

/-- An image is open between two passes of the worker. -/
structure Going (d₀ : Dev) (w : Watch) : Prop where
  lengths : ∀ h ∈ w.session.cxt.imageHdr, h.imageLength < 2 ^ 32
  buffer : w.session.cxt.buffer.length ≤ fwUpgradeBufSize
  some : w.session.cxt.state = .processImage → w.session.cxt.buffer ≠ []
  isFirst : w.session.cxt.isFirst = false
  state : w.session.cxt.state ∈ [State.processImage, .receiveData, .resumeService, .resumeServer]
  image : ImageOpen d₀ w.Counts w.created w.place w.received w.session
  holds : w.session.phase = .process → w.session.cxt.state ≠ .resumeService → w.session.Holds w.place

/-- The invariant of a watched session. -/
structure Inv (d₀ : Dev) (w : Watch) : Prop where
  based : w.Based d₀
  alive : Alive w.session → w.FsErased ∧ (w.session.cxt.Idle ∨ w.Going d₀)

/-- The condition under which the worker erases before it programs in its next pass: an FS1 image finds the second
    file system ready, a resumed session finds the entry of its own image, and a failed session is not kept by a
    suspend. -/
structure Clear (env : Env) (w : Watch) : Prop where
  passes : ∀ v ∈ w.heads env, v.PassClear env
  resumed : w.Enters .resumeService → w.session.cxt.imageWrtLength ≠ 0 → ∀ i e,
    findEntry (w.session.fu.dev.mem.fwd w.session.cxt.trialFwdIdx) (w.hdr env).imageId = some (i, e) →
      (clientOf w.session.cxt.trialFwdIdx i e).At w.place
  failed : ∀ e, w.session.phase = .finalize (.error e) → w.session.poll.poll.cxt.sessionStatus ≠ .suspend

/-- The steps of a watched session: the worker's passes that meet the condition, and being resumed. -/
inductive Step (env : Env) : Watch → Watch → Prop where
  | step {w : Watch} (h : w.Clear env) : Step env w (w.step env)
  | resume (w : Watch) (script : Script) : Step env w { w with session := w.session.resume script }

theorem start_inv (fu : Fu) (flags : ℕ) (script : Script) : (start (Session.start fu flags script)).Inv fu.dev := by
  refine ⟨⟨⟨[], (Dev.writes_nil _).symm⟩, le_rfl, le_rfl, le_rfl⟩, fun _ => ⟨?_, .inl ⟨?_, ?_, ?_, rfl⟩⟩⟩
  · intro x hx
    exact absurd hx not_mem_empty
  · intro h hh
    cases hh
  · exact Nat.zero_le _
  · intro hst
    cases hst

/-- A change that keeps the image, the device and what is known about them. -/
theorem Inv.keep (h : w.Inv d₀) {s : Session} (hd : s.fu.dev = w.session.fu.dev)
    (ha : Alive s → Alive w.session ∧ (w.session.cxt.Idle → s.cxt.Idle) ∧
      (w.Going d₀ → Going d₀ { w with session := s })) : Inv d₀ { w with session := s } := by
  have hlog : ({ w with session := s } : Watch).log = w.log ++ [] := by
    rw [List.append_nil]
    exact congrArg Dev.log hd
  refine ⟨h.based.keep rfl rfl h.based.created hd, fun hal => ?_⟩
  obtain ⟨hal', hidle, hgo⟩ := ha hal
  obtain ⟨he, hio⟩ := h.alive hal'
  exact ⟨he.grow rfl rfl rfl h.based.fsTo hlog, hio.imp hidle hgo⟩

theorem ImageOpen.congr {P : ℕ → Prop} {n : ℕ} {p : Spot} {b : Bytes} {s s' : Session} (h : ImageOpen d₀ P n p b s)
    (hd : s'.fu.dev = s.fu.dev) (hc : s'.cxt.imageWrtCount = s.cxt.imageWrtCount)
    (hl : s'.cxt.imageWrtLength = s.cxt.imageWrtLength) : ImageOpen d₀ P n p b s' :=
  ⟨hc.trans h.count, by rw [hl]; exact h.unfinished, by rw [hl]; exact h.length_lt, by rw [hd]; exact h.laid⟩

/-- An open image stays open while nothing about it changes. -/
theorem Going.keep (h : w.Going d₀) {s : Session} (hd : s.fu.dev = w.session.fu.dev) (hf : SameFile w.session.cxt s.cxt)
    (hc : s.cxt.imageWrtCount = w.session.cxt.imageWrtCount)
    (hl : s.cxt.imageWrtLength = w.session.cxt.imageWrtLength)
    (hs : s.cxt.state ∈ [State.processImage, .receiveData, .resumeService, .resumeServer])
    (hp : s.cxt.state = .processImage → s.cxt.buffer ≠ [])
    (hh : s.phase = .process → s.cxt.state ≠ .resumeService → s.Holds w.place) : Going d₀ { w with session := s } where
  lengths := hf.imageHdr ▸ h.lengths
  buffer := hf.buffer ▸ h.buffer
  some := hp
  isFirst := hf.isFirst.trans h.isFirst
  state := hs
  image := ImageOpen.congr h.image hd hc hl
  holds := hh

/-- Requests change only the status of the session. -/
theorem poll_keeps (s : Session) : s.poll.fu = s.fu ∧ s.poll.phase = s.phase ∧
    ∃ st, s.poll.cxt = { s.cxt with sessionStatus := st } := by
  obtain ⟨sc, st, h⟩ := s.poll_eq
  rw [h]
  exact ⟨rfl, rfl, st, rfl⟩

theorem idle_status {c : Cxt} (h : c.Idle) (st : SessionStatus) : ({ c with sessionStatus := st } : Cxt).Idle :=
  ⟨h.lengths, h.buffer, h.processing, h.closed⟩

/-- A session as it is kept by a suspend: its handle is given back, the rest stays. -/
theorem Inv.kept (h : w.Inv d₀) (hal : Alive w.session) {s : Session} (hd : s.fu.dev = w.session.fu.dev)
    (hc : ∃ st k, s.cxt = { w.session.cxt with sessionStatus := st, partitionHdl := k }) (hp : s.phase ≠ .process) :
    Inv d₀ { w with session := s } := by
  obtain ⟨st, k, hc⟩ := hc
  refine h.keep hd fun _ => ⟨hal, fun hi => ?_, fun hg => ?_⟩
  · rw [hc]
    exact ⟨hi.lengths, hi.buffer, hi.processing, hi.closed⟩
  · refine hg.keep hd ?_ ?_ ?_ ?_ ?_ fun hph => absurd hph hp
    · rw [hc]
      exact ⟨rfl, rfl, rfl, rfl⟩
    · rw [hc]
    · rw [hc]
    · rw [hc]
      exact hg.state
    · rw [hc]
      exact hg.some

/-- Writes made while no image is open. -/
theorem Inv.aside (h : w.Inv d₀) {s : Session} (hext : w.session.fu.Extends s.fu)
    (ha : Alive s → Alive w.session ∧ (w.session.cxt.Idle → s.cxt.Idle) ∧ ¬w.Going d₀) :
    Inv d₀ { w with session := s } := by
  obtain ⟨ws, hd⟩ := hext
  have hlog : ({ w with session := s } : Watch).log = w.log ++ ws := congrArg Dev.log hd
  refine ⟨h.based.grow rfl rfl h.based.created hd, fun hal => ?_⟩
  obtain ⟨hal', hidle, hno⟩ := ha hal
  obtain ⟨he, hi | hg⟩ := h.alive hal'
  · exact ⟨he.grow rfl rfl rfl h.based.fsTo hlog, .inl (hidle hi)⟩
  · exact absurd hg hno

theorem leave_cases (s : Session) (r : Except FuStatus Unit) :
    s.cxt.sessionStatus = .suspend ∧ s.leave r = { s.freePartitionHdl with phase := .done (.error .sessionSuspend) } ∨
      ¬Alive (s.leave r) := by
  rw [Session.leave]
  split
  · exact .inl ⟨‹_›, rfl⟩
  · refine .inr ?_
    rintro (h | h | ⟨-, h⟩)
    · cases h
    · cases h
    · cases h

/-- `fw_upgrade_session_finalize`. -/
theorem Inv.finalize (h : w.Inv d₀) {ret : Except FuStatus Unit} (hph : w.session.phase = .finalize ret)
    (hcl : w.Clear env) : Inv d₀ { w with session := w.session.poll.finalize ret } := by
  obtain ⟨hfu, -, st, hst⟩ := poll_keeps w.session
  obtain ⟨hfu', -, st', hst'⟩ := poll_keeps w.session.poll
  rw [Session.finalize]
  cases hret : w.session.poll.finalRet ret with
  | error e =>
    simp only
    have hdev : (w.session.poll.poll.leave (.error e)).fu.dev = w.session.fu.dev := by
      rw [Session.leave_dev, hfu', hfu]
    rcases leave_cases w.session.poll.poll (.error e) with ⟨hsus, heq⟩ | hna
    · cases ret with
      | error e' => exact absurd hsus (hcl.failed e' hph)
      | ok u =>
        refine h.kept (.inr (.inl hph)) hdev ?_ ?_
        · rw [heq]
          refine ⟨st', none, ?_⟩
          show w.session.poll.poll.freePartitionHdl.cxt = _
          rw [Session.freePartitionHdl_cxt, hst', hst]
        · rw [heq]
          simp
    · exact h.keep hdev fun hal => absurd hal hna
  | ok u =>
    -- only a finished session is made valid, and it has no image open
    have hok : (∃ u, ret = .ok u) ∧ w.session.cxt.state = .finish := by
      unfold Session.finalRet at hret
      rw [hst] at hret
      split at hret
      · cases hret
      · cases ret with
        | error e => cases hret
        | ok u =>
          simp only at hret
          split at hret
          · cases hret
          · rename_i hne
            exact ⟨⟨u, rfl⟩, not_not.mp hne⟩
    obtain ⟨⟨u', rfl⟩, hfin⟩ := hok
    have hno : ¬w.Going d₀ := by
      intro hg
      have := hg.state
      rw [hfin] at this
      simp at this
    have hval := validate_aside w.session.poll
    have hext : w.session.fu.Extends w.session.poll.validate.fu := hfu ▸ hval.dev
    simp only
    split
    · refine h.aside (hext.trans (.of_dev ?_)) fun hal => ?_
      · exact w.session.poll.validate.fin_dev
      · rcases hal with hal | hal | ⟨-, hal⟩ <;> cases hal
    · obtain ⟨hfu₂, -, st₂, hst₂⟩ := poll_keeps w.session.poll.validate
      have hdev : w.session.fu.Extends (w.session.poll.validate.poll.leave (.ok ())).fu :=
        hext.trans (.of_dev (by rw [Session.leave_dev, hfu₂]))
      rcases leave_cases w.session.poll.validate.poll (.ok ()) with ⟨-, heq⟩ | hna
      · refine h.aside hdev fun _ => ⟨.inr (.inl hph), fun hi => ?_, hno⟩
        have hi' : w.session.poll.validate.cxt.Idle := hval.idle (by rw [hst]; exact idle_status hi st)
        rw [heq]
        show w.session.poll.validate.poll.freePartitionHdl.cxt.Idle
        rw [Session.freePartitionHdl_cxt, hst₂]
        exact ⟨hi'.lengths, hi'.buffer, hi'.processing, hi'.closed⟩
      · exact h.aside hdev fun hal => absurd hal hna

/-- `fw_upgrade_session_resume`. -/
theorem Inv.resume (h : w.Inv d₀) (script : Script) : Inv d₀ { w with session := w.session.resume script } := by
  rw [Session.resume]
  split
  swap
  · exact h
  rename_i r hph
  split
  swap
  · exact h
  rename_i hsus
  refine h.keep rfl fun _ => ⟨.inr (.inr ⟨⟨r, hph⟩, hsus⟩), fun hi => ?_, fun hg => ?_⟩
  · refine ⟨hi.lengths, hi.buffer, fun hst => ?_, hi.closed⟩
    exfalso
    simp only at hst
    split at hst
    · cases hst
    · rename_i hlt
      rw [hst] at hlt
      exact hlt (by decide)
  · have hst : (if State.resumeService.ctorIdx ≤ w.session.cxt.state.ctorIdx then State.resumeService
        else w.session.cxt.state) = .resumeService := by
      have := hg.state
      simp only [List.mem_cons, List.not_mem_nil, or_false] at this
      rcases this with h' | h' | h' | h' <;> rw [h'] <;> rfl
    refine hg.keep rfl ⟨rfl, rfl, rfl, rfl⟩ rfl rfl ?_ ?_ ?_
    · simp only [hst]
      simp
    · intro hp
      simp only [hst] at hp
      cases hp
    · intro _ hne
      simp only [hst] at hne
      exact absurd rfl hne

/-! ### The switch -/

theorem afterSwitch_keeps (r : Except FuStatus Bool × Session) : (Session.afterSwitch r).fu = r.2.fu ∧
    (Session.afterSwitch r).cxt = r.2.cxt ∧ (Alive (Session.afterSwitch r) → ∃ b, r.1 = .ok b) := by
  rcases r with ⟨e | (_ | _), s⟩
  · refine ⟨rfl, rfl, fun h => ?_⟩
    rcases h with h | h | ⟨⟨r, h⟩, -⟩ <;> cases h
  · exact ⟨rfl, rfl, fun _ => ⟨_, rfl⟩⟩
  · exact ⟨rfl, rfl, fun _ => ⟨_, rfl⟩⟩

/-- The second file system after the state that erases it. -/
theorem eraseSecondFs_erased {s s' : Session} (h : eraseSecondFs s = (.ok (), s')) : ∀ x ∈ s.activeFs2,
    Vacant (fun j => s.fu.dev.log.length ≤ j ∧ j < s'.fu.dev.log.length) s'.fu.dev.log x := by
  rw [eraseSecondFs, Cmd.bind_ok (Cmd.gets_apply _ _)] at h
  rcases openPartition_cases s.activeFwd fs2ImgId .flashImageNotFound s with heq | ⟨k, i, en, -, -, -, hfind, heq⟩
  · rw [Cmd.bind_error heq] at h
    cases h
  rw [Cmd.bind_ok heq] at h
  set c := clientOf s.activeFwd i en with hc
  have hid : en.imageId = fs2ImgId := (findEntry_id hfind).1
  set s₁ : Session := { s with fu := s.fu.setHandle k c, cxt := { s.cxt with partitionHdl := some k } } with hs₁
  have hk : s₁.fu.handles k = c := Fu.setHandle_same _ _ _
  have hcid : c.imgId ≠ sblImgId := by
    show en.imageId ≠ sblImgId
    rw [hid]
    decide
  have hst : c.imgStart < 2 ^ 32 ∧ c.imgStart % 4096 = 0 ∧ c.imgSize % 4096 = 0 := by
    have hst : c.imgStart = u32 (en.startBlock * 4096) := if_pos hcid
    have hsz : c.imgSize = u32 (en.totalBlocks * 4096) := if_pos hcid
    rw [hst, hsz]
    simp only [u32]
    omega
  rcases erasePartition_cases k 0 c.imgSize s₁.fu with ⟨r, her, hr⟩ | ⟨-, -, -, -, -, -, -, her⟩
  · obtain ⟨r', hr', hiff⟩ := erasePartition_eq (s := s₁) rfl her
    rcases r' with e | u
    · rw [Cmd.bind_error hr'] at h
      cases h
    · have := (hr (hiff.mp rfl)).2
      rw [hk] at this
      exact absurd this hcid
  · obtain ⟨r', hr', hiff⟩ := erasePartition_eq (s := s₁) rfl her
    rw [hk, Nat.add_zero, u32_of_lt hst.1] at hr'
    rcases r' with e | u
    · rw [Cmd.bind_error hr'] at h
      cases h
    rw [Cmd.bind_ok hr', Cmd.modify_apply] at h
    have hdev : s'.fu.dev = s.fu.dev.writes (eraseBlocks (c.imgStart / 4096) (c.imgSize / 4096)) := by
      cases h
      exact Session.freePartitionHdl_dev _
    intro x hx
    rw [activeFs2_eq hfind] at hx
    rw [hdev, Dev.writes_log]
    refine vacant_eraseBlocks (fun j h₁ h₂ => ⟨h₁, ?_⟩) ?_
    · simp only [List.length_append, eraseBlocks, List.length_map, List.length_range]
      omega
    · have h₁ : c.imgStart / 4096 * 4096 = c.imgStart := Nat.div_mul_cancel (Nat.dvd_of_mod_eq_zero hst.2.1)
      have h₂ : c.imgSize / 4096 * 4096 = c.imgSize := Nat.div_mul_cancel (Nat.dvd_of_mod_eq_zero hst.2.2)
      rw [h₁, h₂]
      exact hx

/-- Receiving changes nothing but the script, or fills the buffer. -/
theorem receiveData_cases (s : Session) : ∃ sc, receiveData s = (.ok false, { s with script := sc }) ∨
    (∃ e, receiveData s = (.error e, { s with script := sc })) ∨
    ∃ d, d ≠ [] ∧ d.length ≤ fwUpgradeBufSize ∧ receiveData s = (.ok true, { s with
      script := sc
      cxt := { s.cxt with
        buffer := d, bufOffset := 0, state := if s.cxt.isFirst then .processConfigFile else .processImage } }) := by
  rw [receiveData]
  split
  · exact ⟨s.script, .inl rfl⟩
  · exact ⟨_, .inr (.inl ⟨_, rfl⟩)⟩
  · rename_i b ps _
    refine ⟨{ s.script with packets := ps }, ?_⟩
    by_cases hemp : b.take fwUpgradeBufSize = []
    · left
      simp only [if_pos hemp]
    · simp only [if_neg hemp]
      refine .inr (.inr ⟨_, hemp, ?_, rfl⟩)
      rw [List.length_take]
      omega

/-- The data is received while an image is open. -/
theorem going_receiveData (h : w.Going d₀) (hst : w.session.cxt.state = .receiveData) (hp : w.session.phase = .process)
    {b : Bool} (hr : (receiveData w.session).1 = .ok b) {s : Session} (hfu : s.fu = (receiveData w.session).2.fu)
    (hc : s.cxt = (receiveData w.session).2.cxt) : Going d₀ { w with session := s } := by
  obtain ⟨k, hk, hat⟩ : w.session.Holds w.place := h.holds hp (by rw [hst]; decide)
  obtain ⟨sc, heq | ⟨e, heq⟩ | ⟨d, hne, hlen, heq⟩⟩ := receiveData_cases w.session
  · rw [heq] at hfu hc
    refine h.keep (by rw [hfu]) (by rw [hc]; exact ⟨rfl, rfl, rfl, rfl⟩) (by rw [hc]) (by rw [hc]) (by rw [hc]; exact h.state)
      (by rw [hc]; exact h.some) fun _ _ => ⟨k, by rw [hc]; exact hk, by rw [hfu]; exact hat⟩
  · rw [heq] at hr
    cases hr
  · rw [heq] at hfu hc
    have hstate : s.cxt.state = .processImage := by
      rw [hc]
      simp only [h.isFirst, Bool.false_eq_true, if_false]
    have hbuf : s.cxt.buffer = d := by rw [hc]
    refine ⟨?_, ?_, fun _ => ?_, ?_, ?_, ?_, fun _ _ => ⟨k, by rw [hc]; exact hk, by rw [hfu]; exact hat⟩⟩
    · show ∀ x ∈ s.cxt.imageHdr, _
      rw [hc]
      exact h.lengths
    · show s.cxt.buffer.length ≤ _
      rw [hbuf]
      exact hlen
    · show s.cxt.buffer ≠ []
      rw [hbuf]
      exact hne
    · show s.cxt.isFirst = false
      rw [hc]
      exact h.isFirst
    · show s.cxt.state ∈ _
      rw [hstate]
      simp
    · exact ImageOpen.congr h.image (by rw [hfu]) (by rw [hc]) (by rw [hc])

/-- The requests that are pending leave the invariant. -/
theorem Inv.poll (h : w.Inv d₀) (hph : w.session.phase = .process) : w.poll.Inv d₀ := by
  obtain ⟨hfu, hph', st, hst⟩ := poll_keeps w.session
  refine h.keep (by rw [hfu]) fun _ => ⟨.inl hph, fun hi => ?_, fun hg => ?_⟩
  · rw [hst]
    exact idle_status hi st
  · refine hg.keep (by rw [hfu]) ?_ ?_ ?_ ?_ ?_ fun _ hne => ?_
    · rw [hst]
      exact ⟨rfl, rfl, rfl, rfl⟩
    · rw [hst]
    · rw [hst]
    · rw [hst]
      exact hg.state
    · rw [hst]
      exact hg.some
    · rw [hst] at hne
      obtain ⟨k, hk, hat⟩ := hg.holds hph hne
      exact ⟨k, by rw [hst]; exact hk, by rw [hfu]; exact hat⟩

variable (env) in
/-- The pass of the worker that enters the switch. -/
theorem step_running {s : Session} (hph : s.phase = .process) (hrun : s.poll.cxt.sessionStatus = .running) :
    s.step env = Session.afterSwitch (sessionSwitch env s.poll) := by
  rw [Session.step, hph]
  simp only
  rw [if_pos hrun]

/-- The switch in a state that receives no image, while none is open or the state has nothing to do with it. -/
theorem Inv.switch (h : w.Inv d₀) (hph : w.session.phase = .process) (hst : w.session.cxt.state ≠ .processImage)
    (hgo : w.Going d₀ → ∀ b, (sessionSwitch env w.session).1 = .ok b → ∀ s, s.fu = (sessionSwitch env w.session).2.fu →
      s.cxt = (sessionSwitch env w.session).2.cxt → Going d₀ { w with session := s }) :
    Inv d₀ { w with session := Session.afterSwitch (sessionSwitch env w.session) } := by
  obtain ⟨hfu, hcx, hal⟩ := afterSwitch_keeps (sessionSwitch env w.session)
  obtain ⟨hext, hidle⟩ := sessionSwitch_aside env hst
  obtain ⟨he, hio⟩ := h.alive (.inl hph)
  obtain ⟨ws, hd⟩ := hext
  have hd' : (Session.afterSwitch (sessionSwitch env w.session)).fu.dev = w.session.fu.dev.writes ws := by rw [hfu, hd]
  have hlog : ({ w with session := Session.afterSwitch (sessionSwitch env w.session) } : Watch).log = w.log ++ ws :=
    congrArg Dev.log hd'
  refine ⟨h.based.grow rfl rfl h.based.created hd', fun ha => ⟨he.grow rfl rfl rfl h.based.fsTo hlog, ?_⟩⟩
  obtain ⟨b, hb⟩ := hal ha
  rcases hio with hi | hg
  · refine .inl ?_
    rw [hcx]
    exact hidle b hb hi
  · exact .inr (hgo hg b hb _ hfu hcx)

/-- The states between two pieces of an open image keep it. -/
theorem going_switch (h : w.Going d₀) (hph : w.session.phase = .process) (hst : w.session.cxt.state ≠ .processImage)
    (hres : w.session.cxt.state = .resumeService → w.session.cxt.imageWrtLength ≠ 0 → ∀ i e,
      findEntry (w.session.fu.dev.mem.fwd w.session.cxt.trialFwdIdx) (w.hdr env).imageId = some (i, e) →
        (clientOf w.session.cxt.trialFwdIdx i e).At w.place)
    {b : Bool} (hb : (sessionSwitch env w.session).1 = .ok b) {s : Session}
    (hfu : s.fu = (sessionSwitch env w.session).2.fu) (hcx : s.cxt = (sessionSwitch env w.session).2.cxt) :
    Going d₀ { w with session := s } := by
  have hmem := h.state
  simp only [List.mem_cons, List.not_mem_nil, or_false] at hmem
  rcases hmem with hs | hs | hs | hs
  · exact absurd hs hst
  · have hsw : sessionSwitch env w.session = receiveData w.session := by simp only [sessionSwitch, hs]
    rw [hsw] at hb hfu hcx
    exact going_receiveData h hs hph hb hfu hcx
  · have hsw : sessionSwitch env w.session = (resumeService env >>= fun _ => pure true) w.session := by
      simp only [sessionSwitch, hs]
    rw [hsw] at hb hfu hcx
    rcases resumeService_cases env w.session with ⟨e, s', hr, -⟩ | ⟨k, i, en, d, hfind, hr⟩
    · rw [Cmd.bind_error hr] at hb
      cases hb
    rw [Cmd.bind_ok hr] at hfu hcx
    have hlen := h.image.unfinished
    have hat := hres hs (by omega) i en hfind
    refine h.keep ?_ ?_ ?_ ?_ ?_ ?_ fun _ _ => ⟨k, ?_, ?_⟩
    · rw [hfu]
      rfl
    · rw [hcx]
      exact ⟨rfl, rfl, rfl, rfl⟩
    · rw [hcx]
      rfl
    · rw [hcx]
      rfl
    · rw [hcx]
      simp
    · rw [hcx]
      simp
    · rw [hcx]
      rfl
    · rw [hfu]
      simp only [Cmd.pure_apply, Fu.setHandle_same]
      exact hat
  · have hsw : sessionSwitch env w.session = (resumeServer >>= fun _ => pure true) w.session := by
      simp only [sessionSwitch, hs]
    rw [hsw] at hb hfu hcx
    obtain ⟨k, hk, hat⟩ := h.holds hph (by rw [hs]; decide)
    obtain ⟨sc, ⟨e, hr⟩ | hr⟩ := resumeServer_cases w.session
    · rw [Cmd.bind_error hr] at hb
      cases hb
    rw [Cmd.bind_ok hr] at hfu hcx
    refine h.keep ?_ ?_ ?_ ?_ ?_ ?_ fun _ _ => ⟨k, ?_, ?_⟩
    · rw [hfu]
      rfl
    · rw [hcx]
      exact ⟨rfl, rfl, rfl, rfl⟩
    · rw [hcx]
      rfl
    · rw [hcx]
      rfl
    · rw [hcx]
      simp
    · rw [hcx]
      simp
    · rw [hcx]
      exact hk
    · rw [hfu]
      exact hat

/-- The head of the loop of a pass of the worker. -/
theorem Inv.head (h : w.Inv d₀) (hph : w.session.phase = .process) (hst : w.session.cxt.state = .processImage) :
    w.Head d₀ := by
  obtain ⟨he, hi | hg⟩ := h.alive (.inl hph)
  · obtain ⟨hb, hf⟩ := hi.processing hst
    exact ⟨⟨h.based, he, hi.lengths, hi.buffer, hb, hf, .inl hi.closed⟩, hst⟩
  · have hh := hg.holds hph (by rw [hst]; decide)
    exact ⟨⟨h.based, he, hg.lengths, hg.buffer, hg.some hst, hg.isFirst, .inr ⟨hg.image, hh, hst⟩⟩, hst⟩

/-- What the loop leaves is kept until the next pass. -/
theorem Left.inv (h : w.Left d₀) {s : Session} (hfu : s.fu = w.session.fu)
    (hc : s.cxt = { w.session.cxt with
      state := if w.session.cxt.state = .processImage then .receiveData else w.session.cxt.state }) :
    Inv d₀ { w with session := s } := by
  have hlog : ({ w with session := s } : Watch).log = w.log ++ [] := by
    rw [List.append_nil]
    exact congrArg (fun fu : Fu => fu.dev.log) hfu
  have hns : s.cxt.state ≠ .processImage := by
    rw [hc]
    simp only
    split
    · decide
    · assumption
  refine ⟨h.based.keep rfl rfl h.based.created (by rw [← hfu]),
    fun _ => ⟨h.erased.grow rfl rfl rfl h.based.fsTo hlog, ?_⟩⟩
  rcases h.image with hz | ⟨hO, ⟨k, hk, hat⟩, hst⟩
  · refine .inl ⟨?_, ?_, fun hp => absurd hp hns, ?_⟩
    · show ∀ x ∈ s.cxt.imageHdr, _
      rw [hc]
      exact h.lengths
    · show s.cxt.buffer.length ≤ _
      rw [hc]
      exact h.buffer
    · show s.cxt.imageWrtLength = 0
      rw [hc]
      exact hz
  · have hs' : s.cxt.state = .receiveData := by rw [hc]; exact if_pos hst
    refine .inr ⟨?_, ?_, fun hp => absurd hp hns, ?_, ?_, ?_, fun _ _ => ⟨k, ?_, ?_⟩⟩
    · show ∀ x ∈ s.cxt.imageHdr, _
      rw [hc]
      exact h.lengths
    · show s.cxt.buffer.length ≤ _
      rw [hc]
      exact h.buffer
    · show s.cxt.isFirst = false
      rw [hc]
      exact h.isFirst
    · show s.cxt.state ∈ _
      rw [hs']
      simp
    · exact ImageOpen.congr hO (by rw [hfu]) (by rw [hc]) (by rw [hc])
    · show s.cxt.partitionHdl = _
      rw [hc]
      exact hk
    · show (s.fu.handles k).At _
      rw [hfu]
      exact hat

/-- A pass of the worker that processes an image. -/
theorem Inv.process (h : w.Inv d₀) (hpast : ∀ i, (env.pastEnd i).imageLength < 2 ^ 32)
    (hrram : ∀ a m, m ≤ fwUpgradeBufSize → d₀.rramOk a m = true → a + m < 2 ^ 32) (hcl : w.Clear env)
    (hen : w.Enters .processImage) : (∀ v ∈ w.heads env, v.ErasesFirst env) ∧ (w.step env).Inv d₀ := by
  obtain ⟨hph, hrun, hst⟩ := hen
  obtain ⟨hfu, hph', st, hcx⟩ := poll_keeps w.session
  have hheads : w.heads env = w.poll.rounds env w.fuel := if_pos ⟨hph, hrun, hst⟩
  have hstep : w.step env = { w.poll.loop env w.fuel with session := w.session.step env } := if_pos ⟨hph, hrun, hst⟩
  have hst' : w.poll.session.cxt.state = .processImage := by
    show w.session.poll.cxt.state = _
    rw [hcx]
    exact hst
  have hhead : w.poll.Head d₀ := (h.poll hph).head (hph'.trans hph) hst'
  have hloop := hhead.loop hpast hrram w.fuel (hheads ▸ hcl.passes)
  refine ⟨hheads ▸ hloop.first, ?_⟩
  rw [hstep, step_running env hph hrun]
  have hfuel : w.session.poll.cxt.buffer.length + w.session.poll.cxt.totalImages + 2 = w.fuel := by
    rw [hcx]
    rfl
  have hsw : sessionSwitch env w.session.poll = (processImage env >>= fun _ => pure true) w.session.poll := by
    have : w.session.poll.cxt.state = .processImage := hst'
    simp only [sessionSwitch, this]
  have hsess : (w.poll.loop env w.fuel).session = (receiveLoop env w.fuel w.session.poll).2 := loop_session _ _
  have hri : fwUpgradeProcessReceiveImage env w.session.poll = receiveLoop env w.fuel w.session.poll := by
    rw [fwUpgradeProcessReceiveImage, hfuel]
  rw [hsw]
  have hleft := hloop.left
  rcases hr : receiveLoop env w.fuel w.session.poll with ⟨e | u, s'⟩
  · -- a failed pass is not gone on with
    have he : processImage env w.session.poll = (.error e, s') := by rw [processImage, Cmd.bind_error (hri.trans hr)]
    rw [Cmd.bind_error he]
    rw [hr] at hsess
    refine ⟨hloop.based.keep rfl rfl hloop.based.created ?_, fun hal => ?_⟩
    · rw [hsess]
      rfl
    · rcases hal with hal | hal | ⟨⟨r, hal⟩, -⟩ <;> cases hal
  · have he : processImage env w.session.poll =
        (.ok (), if s'.cxt.state = .processImage then s'.setState .receiveData else s') := by
      rw [processImage, Cmd.bind_ok (hri.trans hr), Cmd.modify_apply]
    rw [Cmd.bind_ok he]
    rw [hr] at hsess
    refine (hleft (by show (receiveLoop env w.fuel w.session.poll).1 = _; rw [hr])).inv ?_ ?_
    · rw [hsess]
      show (if s'.cxt.state = .processImage then s'.setState .receiveData else s').fu = s'.fu
      split <;> rfl
    · rw [hsess]
      show (if s'.cxt.state = .processImage then s'.setState .receiveData else s').cxt = _
      split <;> rename_i hs
      · rfl
      · rfl

/-- The pass of the worker that erases the second file system. -/
theorem Inv.eraseSecondFs (h : w.Inv d₀) (hen : w.Enters .eraseSecondFs) : (w.step env).Inv d₀ := by
  obtain ⟨hph, hrun, hst⟩ := hen
  obtain ⟨hfu, -, st, hcx⟩ := poll_keeps w.session
  have hstep : w.step env = { w with
      session := w.session.step env, secondFs := w.session.activeFs2, fsFrom := w.log.length
      fsTo := (w.session.step env).fu.dev.log.length } := by
    rw [Watch.step, if_neg (fun hp => absurd (hst.symm.trans hp.2.2) (by decide)), if_pos ⟨hph, hrun, hst⟩]
  have hst' : w.session.poll.cxt.state = .eraseSecondFs := by rw [hcx]; exact hst
  have hI := h.poll hph
  have hsw : sessionSwitch env w.session.poll = (Upgrade.eraseSecondFs >>= fun _ => pure true) w.session.poll := by
    simp only [sessionSwitch, hst']
  have hs := step_running env hph hrun
  obtain ⟨hfu', hcx', hal⟩ := afterSwitch_keeps (sessionSwitch env w.session.poll)
  obtain ⟨⟨ws, hd⟩, hidle⟩ := sessionSwitch_aside env (s := w.session.poll) (by rw [hst']; decide)
  have hd' : (w.session.step env).fu.dev = w.session.fu.dev.writes ws := by rw [hs, hfu', hd, hfu]
  rw [hstep]
  refine ⟨⟨?_, h.based.log_le, le_rfl, h.based.created⟩, fun ha => ?_⟩
  · show ∃ vs, (w.session.step env).fu.dev = _
    rw [hd']
    exact writes_ext h.based.ext ws
  rw [hs] at ha
  obtain ⟨b, hb⟩ := hal ha
  refine ⟨?_, .inl ?_⟩
  · -- the blocks of the active FS2 have just been erased
    rcases hr : Upgrade.eraseSecondFs w.session.poll with ⟨e | u, s'⟩
    · rw [hsw, Cmd.bind_error hr] at hb
      cases hb
    have hlog : (w.session.step env).fu.dev.log = s'.fu.dev.log := by
      rw [hs, hfu', hsw, Cmd.bind_ok hr]
      rfl
    have hv := eraseSecondFs_erased hr
    have hact : w.session.poll.activeFs2 = w.session.activeFs2 := by
      rw [Session.activeFs2, Session.activeFs2, Session.activeFwd, Session.activeFwd, hfu]
    rw [hact, hfu] at hv
    intro x hx
    show Vacant (fun j => w.log.length ≤ j ∧ j < (w.session.step env).fu.dev.log.length)
      ((w.session.step env).fu.dev.log.take (w.session.step env).fu.dev.log.length) x
    rw [List.take_length, hlog]
    exact hv x hx
  · obtain ⟨-, hi | hg⟩ := h.alive (.inl hph)
    · show (w.session.step env).cxt.Idle
      rw [hs, hcx']
      refine hidle b hb ?_
      rw [hcx]
      exact idle_status hi st
    · have := hg.state
      rw [hst] at this
      simp at this

/-- Every pass of the worker that meets the condition keeps the invariant. -/
theorem Inv.step (h : w.Inv d₀) (hpast : ∀ i, (env.pastEnd i).imageLength < 2 ^ 32)
    (hrram : ∀ a m, m ≤ fwUpgradeBufSize → d₀.rramOk a m = true → a + m < 2 ^ 32) (hcl : w.Clear env) :
    (w.step env).Inv d₀ := by
  by_cases hpi : w.Enters .processImage
  · exact (h.process hpast hrram hcl hpi).2
  by_cases hfs : w.Enters .eraseSecondFs
  · exact h.eraseSecondFs hfs
  have hstep : w.step env = { w with session := w.session.step env } := by
    rw [Watch.step, if_neg hpi, if_neg hfs]
  obtain ⟨hfu, hph', st, hcx⟩ := poll_keeps w.session
  rw [hstep]
  cases hph : w.session.phase with
  | done r =>
    have : w.session.step env = w.session := by rw [Session.step, hph]
    rw [this]
    exact h
  | finalize r =>
    have : w.session.step env = w.session.poll.finalize r := by rw [Session.step, hph]
    rw [this]
    exact h.finalize hph hcl
  | process =>
    by_cases hrun : w.session.poll.cxt.sessionStatus = .running
    · rw [step_running env hph hrun]
      have hns : w.poll.session.cxt.state ≠ .processImage := by
        show w.session.poll.cxt.state ≠ _
        rw [hcx]
        exact fun hs => hpi ⟨hph, hrun, hs⟩
      refine (h.poll hph).switch (hph'.trans hph) hns fun hg b hb s hsf hsc => ?_
      refine going_switch hg (hph'.trans hph) hns (fun hrs => ?_) hb hsf hsc
      have hrs' : w.session.cxt.state = .resumeService := by
        have : w.session.poll.cxt.state = .resumeService := hrs
        rw [hcx] at this
        exact this
      have hres := hcl.resumed ⟨hph, hrun, hrs'⟩
      have h₁ : w.poll.session.cxt.imageWrtLength = w.session.cxt.imageWrtLength := by
        show w.session.poll.cxt.imageWrtLength = _
        rw [hcx]
      have h₂ : w.poll.session.fu = w.session.fu := hfu
      have h₃ : w.poll.session.cxt.trialFwdIdx = w.session.cxt.trialFwdIdx := by
        show w.session.poll.cxt.trialFwdIdx = _
        rw [hcx]
      have h₄ : w.poll.hdr env = w.hdr env := by
        show w.session.poll.cxt.hdrAt env w.session.poll.cxt.imageIndex = _
        rw [hcx]
        rfl
      rw [h₁, h₂, h₃, h₄]
      exact hres
    · have hs : w.session.step env = { w.session.poll with phase := .finalize (.ok ()) } := by
        rw [Session.step, hph]
        simp only
        rw [if_neg hrun]
      rw [hs]
      refine h.kept (.inl hph) (by rw [hfu]) ⟨st, w.session.cxt.partitionHdl, ?_⟩ (by simp)
      rw [hcx]

theorem Step.inv (hpast : ∀ i, (env.pastEnd i).imageLength < 2 ^ 32)
    (hrram : ∀ a m, m ≤ fwUpgradeBufSize → d₀.rramOk a m = true → a + m < 2 ^ 32) {v : Watch} (hs : Step env w v)
    (h : w.Inv d₀) : v.Inv d₀ := by
  cases hs with
  | step hcl => exact h.step hpast hrram hcl
  | resume script => exact h.resume script

/-- The worker's first `n` passes. -/
def run (env : Env) (n : ℕ) (w : Watch) : Watch := (step env)^[n] w

theorem run_reach {n : ℕ} (h : ∀ m < n, (w.run env m).Clear env) : Reach (Step env) w (w.run env n) := by
  induction n with
  | zero => exact .refl
  | succ n ih =>
    have hs : w.run env (n + 1) = (w.run env n).step env := Function.iterate_succ_apply' _ _ _
    rw [hs]
    exact .tail (ih fun m hm => h m (by omega)) (.step (h n (by omega)))

end Run

end Watch

/-! ### Erase before program -/

/-- In every session whose passes meet the condition, each round of `fw_upgrade_process_receive_image` programs only
    image bytes that were erased since the partition was created, or by `ERASE_SECOND_FS` for FS1, and not programmed
    since; it erases none it has programmed; and a completed image reads back as it was received. -/
theorem image_bytes_erased_first (env : Env) (hpast : ∀ i, (env.pastEnd i).imageLength < 2 ^ 32) (fu : Fu)
    (hrram : ∀ a m, m ≤ fwUpgradeBufSize → fu.dev.rramOk a m = true → a + m < 2 ^ 32) (flags : ℕ) (script : Script)
    (w : Watch) (hr : Reach (Watch.Step env) (Watch.start (Session.start fu flags script)) w) (hcl : w.Clear env) :
    ∀ v ∈ w.heads env, v.ErasesFirst env := by
  have hI : w.Inv fu.dev := hr.inv (Watch.start_inv fu flags script) fun x y hs hx => hs.inv hpast hrram hx
  by_cases hen : w.Enters .processImage
  · exact (hI.process hpast hrram hcl hen).1
  · have hno : w.heads env = [] := if_neg hen
    rw [hno]
    exact fun v hv => (List.not_mem_nil hv).elim

/-- The small device with the RRAM at 0x200000 to 0x280000. -/
def rramFu : Fu :=
  { smallFu with dev := { smallFu.dev with rramOk := fun a n => decide (0x200000 ≤ a ∧ a + n ≤ 0x280000) } }

/-- The session that receives `smallApp`, watched. -/
def smallWatch (n : ℕ) : Watch := (Watch.start (.start rramFu 0 smallScript)).run smallAppEnv n

theorem smallWatch_clear {m : ℕ} (hm : m < 10) : (smallWatch m).Clear smallAppEnv := by
  have hall : ∀ m < 10, (smallWatch m).session.phase = .process ∧ (smallWatch m).session.cxt.state ≠ .resumeService ∧
      ∀ v ∈ (smallWatch m).heads smallAppEnv, (v.hdr smallAppEnv).imageId ≠ fs1ImgId := by
    decide +kernel
  obtain ⟨hph, hst, hid⟩ := hall m hm
  refine ⟨fun v hv _ hfs => absurd hfs (hid v hv), fun h => absurd h.2.2 hst, fun e h => ?_⟩
  rw [hph] at h
  cases h

theorem image_bytes_erased_first_small : (smallWatch 9).heads smallAppEnv ≠ [] ∧
    ∀ v ∈ (smallWatch 9).heads smallAppEnv, v.ErasesFirst smallAppEnv := by
  refine ⟨by decide +kernel, image_bytes_erased_first smallAppEnv (fun _ => Nat.zero_lt_succ _) rramFu ?_ 0 smallScript _
    (Watch.run_reach fun m hm => smallWatch_clear (by omega)) (smallWatch_clear (by omega))⟩
  intro a m _ h
  have := of_decide_eq_true h
  omega

/-- A second image of three bytes and its SHA-256. -/
def otherImage : Bytes := [4, 5, 6]

def otherImageHash : ℕ := 0x787c798e39a5bc1910355bae6d0cd87a36b2e10fd0202a83e3bb6b005da83472

/-- The entry of an FS1 image of three bytes. -/
def smallFs1 (hash : ℕ) : ImageHdr := ⟨1, fs1ImgId, 1, 4096, 3, 1, hashValue hash⟩

/-- The header of an all-in-one file with two FS1 images, without its hash. -/
def twoFs1Prefix : Bytes := headerPrefix fwUpgradeMagicV1 1 2 [smallFs1 smallImageHash, smallFs1 otherImageHash]

/-- SHA-256 of this header. -/
def twoFs1Hash : ℕ := 0x537d77aeb1e7f755e0d4879c2b351108f79579aeabeed8eb1634360a1c110f48

def twoFs1Env : Env :=
  smallEnv [(twoFs1Prefix, twoFs1Hash), (smallImage, smallImageHash), (otherImage, otherImageHash)]

/-- The session that receives the file in one packet, watched. -/
def twoFs1Watch (n : ℕ) : Watch := (Watch.start (.start rramFu 0
  ⟨[.data (twoFs1Prefix ++ hashValue twoFs1Hash ++ smallImage ++ otherImage)], [], []⟩)).run twoFs1Env n

/-- The second FS1 image is programmed over the first one, passes its hash check and reads back as something else. -/
theorem second_fs1_programmed_over_first : ∃ v ∈ (twoFs1Watch 9).heads twoFs1Env,
    (v.pass twoFs1Env).received = otherImage ∧
    (v.pass twoFs1Env).session.fu.dev.mem.flash.read (v.pass twoFs1Env).place.imgStart 3 = [0, 0, 2] ∧
    ¬v.ErasesFirst twoFs1Env := by
  set v := (twoFs1Watch 9).poll.pass twoFs1Env with hv
  -- the run, evaluated once
  have hall : ((twoFs1Watch 9).Enters .processImage ∧
        (receivePass twoFs1Env (twoFs1Watch 9).poll.session).1 = .ok true) ∧
      ((v.pass twoFs1Env).received = otherImage ∧
        (v.pass twoFs1Env).session.fu.dev.mem.flash.read (v.pass twoFs1Env).place.imgStart 3 = [0, 0, 2]) ∧
      (receivePass twoFs1Env v.session).1 = .ok false ∧
        (v.pass twoFs1Env).session.cxt.imageIndex ≠ v.session.cxt.imageIndex ∧
        (v.pass twoFs1Env).place.imgId ≠ sblImgId := by
    decide +kernel
  obtain ⟨⟨henters, hmore⟩, ⟨hrec, hread⟩, hlast, hindex, hside⟩ := hall
  have hmem : v ∈ (twoFs1Watch 9).heads twoFs1Env := by
    rw [Watch.heads, if_pos henters, Watch.fuel, Watch.rounds, if_pos hmore, Watch.rounds]
    exact List.mem_cons_of_mem _ List.mem_cons_self
  refine ⟨v, hmem, hrec, hread, fun h => ?_⟩
  have hw := h.readBack false hlast hindex
  rw [Written, hrec] at hw
  rw [Spot.side, if_neg hside] at hw
  exact absurd (hread.symm.trans hw) (by decide)

end Qcc730.Upgrade
