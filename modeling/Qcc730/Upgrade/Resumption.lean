import Qcc730.Upgrade.Indexing
import Qcc730.Upgrade.Writing

/-! Sessions that are suspended and resumed.

    `fw_upgrade_session_resume` sends a session that had been connected to `RESUME_SERVICE`, which opens the
    first partition of the trial FWD with the id of the image at `image_index` and goes on with it. That need
    not be the partition the session was writing to: the trial FWD may have a hidden one with that id before it.
    Nor need there be an image to go on with: the index may be past the last one, or that of an image that is
    not to be downloaded. Where the session goes on with its own partition its writes stay in the area. -/

namespace Qcc730.Upgrade
open Lib Flash

/-- A session, and the place of the partition that it had open last. -/
structure Tracked where
  session : Session
  last : Option Spot

/-- The place of the open partition. -/
def Session.openPlace (s : Session) : Option Spot := s.cxt.partitionHdl.map fun h => (s.fu.handles h).place

namespace Tracked

def start (s : Session) : Tracked := ⟨s, none⟩

/-- The session goes on as `s`. -/
def follow (t : Tracked) (s : Session) : Tracked := ⟨s, s.openPlace <|> t.last⟩

/-- After the header, `RESUME_SERVICE` finds nothing, or an image is to be downloaded and, if part of it is
    written, what is found is the partition it was written to. -/
def Reopens (env : Env) (t : Tracked) : Prop :=
  t.session.cxt.isFirst = false → ∀ i e,
    findEntry (t.session.fu.dev.mem.fwd t.session.cxt.trialFwdIdx)
      (t.session.cxt.hdrAt env t.session.cxt.imageIndex).imageId = some (i, e) →
    Downloading t.session.cxt ∧
      (t.session.cxt.imageWrtLength ≠ 0 → t.last = some (clientOf t.session.cxt.trialFwdIdx i e).place)

/-- The condition under which the worker's next pass writes only to the area: a header that is accepted fits, a
    resumed session goes on with its own partition, and a session that failed or was made valid is not kept by a
    suspend. -/
structure Contains (env : Env) (A : Area) (t : Tracked) : Prop where
  header : t.session.HeaderOk env A
  resumed : t.session.Switches .resumeService → t.Reopens env
  failed : ∀ e, t.session.phase = .finalize (.error e) → t.session.poll.poll.cxt.sessionStatus ≠ .suspend
  finished : ∀ u, t.session.phase = .finalize (.ok u) → t.session.cxt.state = .finish →
    t.session.poll.poll.cxt.sessionStatus ≠ .suspend

/-- The steps of a session: the worker's passes that meet the condition, and being resumed. -/
inductive Step (env : Env) (A : Area) : Tracked → Tracked → Prop where
  | step {t : Tracked} (h : t.Contains env A) : Step env A t (t.follow (t.session.step env))
  | resume (t : Tracked) (script : Script) : Step env A t (t.follow (t.session.resume script))

/-- The open partition is the one that was open last. -/
def Current (t : Tracked) : Prop := ∀ p, t.session.openPlace = some p → t.last = some p

theorem follow_current (t : Tracked) (s : Session) : (t.follow s).Current := by
  intro p hp
  show (s.openPlace <|> t.last) = some p
  rw [show s.openPlace = some p from hp]
  rfl

/-- Nothing is opened. -/
theorem follow_eq {t : Tracked} (h : t.Current) {s : Session} (hs : ∀ p, s.openPlace = some p → t.session.openPlace = some p) :
    t.follow s = ⟨s, t.last⟩ := by
  rw [follow]
  rcases hp : s.openPlace with _ | p
  · rfl
  · rw [h p (hs p hp)]
    rfl

end Tracked

section

variable {env : Env} {fu₀ : Fu} {A : Area}

/-! ### The invariant -/

/-- Part of the current image is written, to a partition of the area that was open last. -/
structure Halted (A : Area) (t : Tracked) : Prop where
  count : t.session.cxt.imageWrtCount < t.session.cxt.imageWrtLength
  length : t.session.cxt.imageWrtLength < 2 ^ 32
  place : ∃ c : Client, t.last = some c.place ∧ A.Holds c ∧ t.session.cxt.imageWrtCount ≤ c.imgSize ∧
    (c.imgId = sblImgId → t.session.cxt.imageWrtLength ≤ c.imgSize)

/-- What holds of a session that was resumed and has received nothing yet, by its state. -/
inductive Resuming (env : Env) (A : Area) (fu₀ : Fu) (t : Tracked) : Prop
  /-- before the header -/
  | early (hs : t.session.cxt.state = .resumeService ∨ t.session.cxt.state = .resumeServer)
    (hL : Layout env.cfg fu₀ A) (he : Early A fu₀.dev t.session)
  /-- in or before an image, its partition is not open -/
  | waiting (hs : t.session.cxt.state = .resumeService) (hL : Layout env.cfg fu₀ A)
    (hb : Busy env A fu₀.dev t.session) (hw : t.session.cxt.imageWrtLength ≠ 0 → Halted A t)
  /-- in or before an image, its partition is open -/
  | image (hs : t.session.cxt.state = .resumeServer) (hL : Layout env.cfg fu₀ A)
    (hb : Busy env A fu₀.dev t.session) (hd : Downloading t.session.cxt) (ho : Ongoing A t.session)
  /-- all images have been downloaded -/
  | downloaded (hs : t.session.cxt.state = .resumeService) (hL : Layout env.cfg fu₀ A)
    (hg : Grown A fu₀.dev t.session.fu.dev) (ht : t.session.cxt.totalImages ≤ t.session.cxt.imageIndex)
    (hf : t.session.cxt.isFirst = false)

theorem Resuming.logged {t : Tracked} (h : Resuming env A fu₀ t) : Logged env A fu₀ t.session := by
  cases h with
  | early hs hL he => exact .inr ⟨hL, he.grown⟩
  | waiting hs hL hb => exact .inr ⟨hL, hb.grown⟩
  | image hs hL hb => exact .inr ⟨hL, hb.grown⟩
  | downloaded hs hL hg => exact .inr ⟨hL, hg⟩

/-- What holds of a session in the loop. -/
def Tracked.Going (env : Env) (A : Area) (fu₀ : Fu) (t : Tracked) : Prop := Inv env A fu₀ t.session ∨ Resuming env A fu₀ t

theorem Tracked.Going.logged {t : Tracked} (h : t.Going env A fu₀) : Logged env A fu₀ t.session :=
  h.elim Inv.logged Resuming.logged

/-- What holds of a session at any time; a suspended one is looked at as it will be when it is resumed. -/
def Tracked.RunInv (env : Env) (A : Area) (fu₀ : Fu) (t : Tracked) : Prop :=
  match t.session.phase with
  | .process => t.Going env A fu₀
  | .finalize (.ok _) => t.Going env A fu₀
  | .finalize (.error _) => Logged env A fu₀ t.session
  | .done _ => t.session.cxt.sessionStatus = .suspend →
      Logged env A fu₀ t.session ∧ ∀ script, Tracked.Going env A fu₀ ⟨t.session.resume script, t.last⟩

theorem Early.congr {d₀ : Dev} {s s' : Session} (h : Early A d₀ s) (hd : s'.fu.dev = s.fu.dev)
    (hv : s'.verified = s.verified) {p : Option ℕ} {st : SessionStatus} {t : State} {b : Bytes}
    (hc : s'.cxt = { s.cxt with partitionHdl := p, sessionStatus := st, state := t, digest := b }) :
    Early A d₀ s' := by
  have hf := h.fresh
  refine ⟨hd ▸ h.grown, ?_, hv.trans h.verified⟩
  rw [hc]
  exact ⟨hf.trial, hf.memStart, hf.isFirst, hf.index, hf.wrtLength, hf.flags, hf.buffer, ⟨hf.collected.pre⟩⟩

/-- Requests that arrive change nothing that the invariant is about. -/
theorem Tracked.Going.keep {t : Tracked} (h : t.Going env A fu₀) {s : Session} (hfu : s.fu = t.session.fu)
    (hv : s.verified = t.session.verified) {st : SessionStatus}
    (hc : s.cxt = { t.session.cxt with sessionStatus := st }) : Tracked.Going env A fu₀ ⟨s, t.last⟩ := by
  rcases h with h | h
  · exact .inl (h.keep hfu hv hc)
  have hplan : SamePlan t.session.cxt s.cxt := by
    rw [hc]
    constructor <;> rfl
  have hstate : s.cxt.state = t.session.cxt.state := by rw [hc]
  have hwl : s.cxt.imageWrtLength = t.session.cxt.imageWrtLength := by rw [hc]
  have hwc : s.cxt.imageWrtCount = t.session.cxt.imageWrtCount := by rw [hc]
  right
  cases h with
  | early hs hL he =>
    exact .early (by rw [hstate]; exact hs) hL (he.congr (by rw [hfu]) hv hc)
  | waiting hs hL hb hw =>
    refine .waiting (hstate.trans hs) hL (hb.keep (hfu ▸ hb.grown) hv hplan) fun hne => ?_
    rw [hwl] at hne
    obtain ⟨hlt, hl, c, hlast, hold, hsz, hsbl⟩ := hw hne
    refine ⟨?_, ?_, c, hlast, hold, ?_, ?_⟩
    · rw [hwc, hwl]; exact hlt
    · rw [hwl]; exact hl
    · rw [hwc]; exact hsz
    · rw [hwl]; exact hsbl
  | image hs hL hb hd ho =>
    refine .image (hstate.trans hs) hL (hb.keep (hfu ▸ hb.grown) hv hplan) (hd.keep hplan) fun hne => ?_
    rw [hwl] at hne
    obtain ⟨hlt, k, hk⟩ := ho hne
    refine ⟨by rw [hwl, hwc]; exact hlt, k, hk.keep (by rw [hfu]) (by rw [hc]) hwl ?_ ?_⟩
    · rw [hwc]; exact hk.count
    · rw [hwc]; exact hk.size
  | downloaded hs hL hg ht hf =>
    exact .downloaded (hstate.trans hs) hL (hfu ▸ hg) (by rw [hplan.total, hplan.index]; exact ht)
      (hplan.isFirst.trans hf)

/-! ### Being kept and resumed -/

/-- An image that is open when the session is suspended. -/
theorem Ongoing.halted {t : Tracked} (h : Ongoing A t.session) (hm : t.Current)
    (hne : t.session.cxt.imageWrtLength ≠ 0) : Halted A t := by
  obtain ⟨hlt, k, hk⟩ := h hne
  refine ⟨hlt, hk.length, t.session.fu.handles k, hm _ ?_, hk.holds, hk.size, hk.sbl⟩
  rw [Session.openPlace, hk.hdl]
  rfl

/-- Where `fw_upgrade_session_resume` goes on. -/
abbrev State.resumed (t : State) : State := if State.resumeService.ctorIdx ≤ t.ctorIdx then .resumeService else t

theorem Session.resume_done {s : Session} {r : Except FuStatus Unit} (hp : s.phase = .done r)
    (hs : s.cxt.sessionStatus = .suspend) (script : Script) : s.resume script = { s with
      phase := .process
      script
      cxt := { s.cxt with sessionStatus := .running, state := s.cxt.state.resumed } } := by
  rw [Session.resume, hp]
  exact if_pos hs

theorem Session.resume_cases (s : Session) (script : Script) : s.resume script = s ∨
    (∃ r, s.phase = .done r) ∧ s.cxt.sessionStatus = .suspend ∧ s.resume script = { s with
      phase := .process
      script
      cxt := { s.cxt with sessionStatus := .running, state := s.cxt.state.resumed } } := by
  rw [Session.resume]
  split
  · split
    · exact .inr ⟨⟨_, ‹_›⟩, ‹_›, rfl⟩
    · exact .inl rfl
  · exact .inl rfl

/-- A session in the loop that is kept by a suspend and resumed. -/
theorem Tracked.Going.resumed {t : Tracked} (h : t.Going env A fu₀) (hm : t.Current) {s : Session}
    (hfu : t.session.cxt.partitionHdl = none → s.fu = t.session.fu) (hd : s.fu.dev = t.session.fu.dev)
    (hv : s.verified = t.session.verified) {p : Option ℕ} (hp : t.session.cxt.partitionHdl = none → p = none)
    {x : SessionStatus} (hc : s.cxt = { t.session.cxt with
      partitionHdl := p, sessionStatus := x, state := t.session.cxt.state.resumed }) :
    Tracked.Going env A fu₀ ⟨s, t.last⟩ := by
  have hplan : SamePlan t.session.cxt s.cxt := by
    rw [hc]
    constructor <;> rfl
  have hstate : s.cxt.state = t.session.cxt.state.resumed := by rw [hc]
  have hwl : s.cxt.imageWrtLength = t.session.cxt.imageWrtLength := by rw [hc]
  have hwc : s.cxt.imageWrtCount = t.session.cxt.imageWrtCount := by rw [hc]
  have hgrown : Grown A fu₀.dev t.session.fu.dev → Grown A fu₀.dev s.fu.dev := fun hg => hd ▸ hg
  have hbusy : Busy env A fu₀.dev t.session → Busy env A fu₀.dev s := fun hb => hb.keep (hgrown hb.grown) hv hplan
  have hwait : (t.session.cxt.imageWrtLength ≠ 0 → Halted A t) → s.cxt.imageWrtLength ≠ 0 → Halted A ⟨s, t.last⟩ := by
    intro hw hne
    rw [hwl] at hne
    obtain ⟨hlt, hl, c, hlast, hold, hsz, hsbl⟩ := hw hne
    refine ⟨?_, ?_, c, hlast, hold, ?_, ?_⟩
    · rw [hwc, hwl]; exact hlt
    · rw [hwl]; exact hl
    · rw [hwc]; exact hsz
    · rw [hwl]; exact hsbl
  have hover : t.session.cxt.totalImages ≤ t.session.cxt.imageIndex → s.cxt.totalImages ≤ s.cxt.imageIndex := by
    rw [hplan.total, hplan.index]
    exact id
  rcases h with h | h
  · cases h with
    | start hs hu =>
      have hst : t.session.cxt.state.resumed = t.session.cxt.state := by
        rcases hs with hs | hs <;> rw [hs] <;> rfl
      rw [hst] at hc
      refine .inl (.start ?_ ⟨(hfu hu.closed).trans hu.fu, ?_, ?_, ?_, ?_, ?_, ?_, ?_, hv.trans hu.verified⟩) <;> rw [hc]
      exacts [hs, hu.isFirst, hu.index, hu.wrtLength, hu.flags, hu.buffer, hu.configBuf, hp hu.closed]
    | chosen hs hL hdev hf hv' =>
      refine .inl (.chosen (by rw [hstate, hs]; rfl) hL (hd.trans hdev) ?_ (hv.trans hv'))
      rw [hc]
      exact ⟨hf.trial, hf.memStart, hf.isFirst, hf.index, hf.wrtLength, hf.flags, hf.buffer, ⟨hf.collected.pre⟩⟩
    | early hs hL he =>
      have he' : Early A fu₀.dev s := he.congr hd hv hc
      simp only [List.mem_cons, List.not_mem_nil, or_false] at hs
      rcases hs with hs | hs | hs | hs | hs | hs <;> rw [hs] at hstate
      · exact .inl (.early (by rw [hstate]; decide) hL he')
      · exact .inl (.early (by rw [hstate]; decide) hL he')
      · exact .inl (.early (by rw [hstate]; decide) hL he')
      · exact .inl (.early (by rw [hstate]; decide) hL he')
      · exact .inr (.early (.inl hstate) hL he')
      · exact .inr (.early (.inl hstate) hL he')
    | between hs hL hb hw =>
      rcases hs with hs | hs <;> rw [hs] at hstate
      · exact .inl (.between (.inl hstate) hL (hbusy hb) (hwl.trans hw))
      · exact .inr (.waiting hstate hL (hbusy hb) (hwait fun hne => absurd hw hne))
    | image hs hL hb hd' ho hn hcs =>
      rcases hs with hs | hs | hs <;> rw [hs] at hstate
      · refine .inl (.image (.inl hstate) hL (hbusy hb) (hd'.keep hplan) (fun hne => ?_) (fun h => ?_) fun _ => ?_)
        · exact absurd (hwl.trans (hcs hs)) hne
        · rw [hstate] at h
          cases h
        · exact hwl.trans (hcs hs)
      · exact .inr (.waiting hstate hL (hbusy hb) (hwait (ho.halted hm)))
      · exact .inr (.waiting hstate hL (hbusy hb) (hwait (ho.halted hm)))
    | copies hs hL hb ht =>
      rw [hs] at hstate
      exact .inr (.downloaded hstate hL (hgrown hb.grown) (hover ht) (hplan.isFirst.trans hb.placing.isFirst))
    | placed hs hL hg htr hv' ht hf =>
      have hst : s.cxt.state = .resumeService := by
        rw [hstate]
        rcases hs with hs | hs <;> rw [hs] <;> rfl
      exact .inr (.downloaded hst hL (hgrown hg) (hover ht) (hplan.isFirst.trans hf))
  · cases h with
    | early hs hL he =>
      have hst : s.cxt.state = .resumeService := by
        rw [hstate]
        rcases hs with hs | hs <;> rw [hs] <;> rfl
      exact .inr (.early (.inl hst) hL (he.congr hd hv hc))
    | waiting hs hL hb hw =>
      rw [hs] at hstate
      exact .inr (.waiting hstate hL (hbusy hb) (hwait hw))
    | image hs hL hb hd' ho =>
      rw [hs] at hstate
      exact .inr (.waiting hstate hL (hbusy hb) (hwait (ho.halted hm)))
    | downloaded hs hL hg ht hf =>
      rw [hs] at hstate
      exact .inr (.downloaded hstate hL (hgrown hg) (hover ht) (hplan.isFirst.trans hf))

/-! ### The worker -/

/-- Opening the partition again changes only the handle. -/
theorem Busy.reopened {s : Session} (hb : Busy env A fu₀.dev s) {c : Client} {k : ℕ} {b : Bytes} :
    Busy env A fu₀.dev { s with
      fu := s.fu.setHandle k c, cxt := { s.cxt with partitionHdl := some k, state := .resumeServer, digest := b } } :=
  hb.keep hb.grown rfl (by constructor <;> rfl)

/-- A partition at the place of a halted image takes the rest of it. -/
theorem Halted.opened {t : Tracked} (h : Halted A t) {c : Client} (hp : t.last = some c.place) {k : ℕ} {b : Bytes} :
    Opened A { t.session with
      fu := t.session.fu.setHandle k c
      cxt := { t.session.cxt with partitionHdl := some k, state := .resumeServer, digest := b } } k := by
  obtain ⟨hlt, hl, c', hlast, hold, hsz, hsbl⟩ := h
  have hpl : c.imgId = c'.imgId ∧ c.imgStart = c'.imgStart ∧ c.imgSize = c'.imgSize := by
    have := Option.some.inj (hp.symm.trans hlast)
    rwa [Spot.mk.injEq] at this
  obtain ⟨hid, hst, hsize⟩ := hpl
  refine ⟨rfl, ?_, Nat.le_of_lt hlt, ?_, hl, ?_⟩
  · rw [Fu.setHandle_same]
    refine ⟨?_, ?_⟩ <;> rw [hid, hst, hsize]
    · exact hold.flash
    · exact hold.sbl
  · rw [Fu.setHandle_same, hsize]
    exact hsz
  · rw [Fu.setHandle_same, hid, hsize]
    exact hsbl

/-- The states of a resumed session. -/
theorem Resuming.switch {t : Tracked} (h : Resuming env A fu₀ t)
    (hr : t.session.cxt.state = .resumeService → t.Reopens env) :
    Cmd.Ends (fun _ s => ∀ l, Tracked.Going env A fu₀ ⟨s, l⟩) (fun _ => Logged env A fu₀) (sessionSwitch env t.session) := by
  have hservice : t.session.cxt.state = .resumeService →
      sessionSwitch env t.session = (resumeService env >>= fun _ => pure true) t.session := fun hs => by
    simp only [sessionSwitch, hs]
  have hserver : t.session.cxt.state = .resumeServer →
      sessionSwitch env t.session = (resumeServer >>= fun _ => pure true) t.session := fun hs => by
    simp only [sessionSwitch, hs]
  cases h with
  | early hs hL he =>
    rcases hs with hs | hs
    · rw [hservice hs]
      rcases resumeService_cases env t.session with ⟨e, s', heq, hd⟩ | ⟨k, i, en, d, hfind, heq⟩
      · rw [Cmd.bind_error heq]
        exact .inr ⟨hL, hd ▸ he.grown⟩
      · rw [Cmd.bind_ok heq]
        exact fun l => .inr (.early (.inr rfl) hL (he.congr rfl rfl rfl))
    · rw [hserver hs]
      obtain ⟨sc, ⟨e, heq⟩ | heq⟩ := resumeServer_cases t.session
      · rw [Cmd.bind_error heq]
        exact .inr ⟨hL, he.grown⟩
      · rw [Cmd.bind_ok heq]
        exact fun l => .inl (.early (by simp) hL (he.congr rfl rfl rfl))
  | waiting hs hL hb hw =>
    rw [hservice hs]
    rcases resumeService_cases env t.session with ⟨e, s', heq, hd⟩ | ⟨k, i, en, d, hfind, heq⟩
    · rw [Cmd.bind_error heq]
      exact .inr ⟨hL, hd ▸ hb.grown⟩
    · rw [Cmd.bind_ok heq]
      obtain ⟨hdown, hplace⟩ := hr hs hb.placing.isFirst i en hfind
      refine fun l => .inr (.image rfl hL hb.reopened ⟨hdown.index, hdown.flag⟩ fun hne => ?_)
      exact ⟨(hw hne).count, k, (hw hne).opened (hplace hne)⟩
  | image hs hL hb hd ho =>
    rw [hserver hs]
    obtain ⟨sc, ⟨e, heq⟩ | heq⟩ := resumeServer_cases t.session
    · rw [Cmd.bind_error heq]
      exact .inr ⟨hL, hb.grown⟩
    · rw [Cmd.bind_ok heq]
      refine fun l => .inl (.image (.inr (.inl rfl)) hL (hb.keep hb.grown rfl (by constructor <;> rfl))
        ⟨hd.index, hd.flag⟩ (fun hne => ?_) (fun hc => by cases hc) fun hc => by cases hc)
      obtain ⟨hlt, k, hk⟩ := ho hne
      exact ⟨hlt, k, hk.keep rfl rfl rfl hk.count hk.size⟩
  | downloaded hs hL hg ht hf =>
    rw [hservice hs]
    rcases resumeService_cases env t.session with ⟨e, s', heq, hd⟩ | ⟨k, i, en, d, hfind, heq⟩
    · rw [Cmd.bind_error heq]
      exact .inr ⟨hL, hd ▸ hg⟩
    · -- there is no image to go on with
      have := (hr hs hf i en hfind).1.index
      omega

/-- Every state of the machine, of a session that was resumed or not. -/
theorem Tracked.Going.switch (hA : A.SamePlaces (sessionArea env.cfg fu₀)) (hS : A.Sane) {t : Tracked}
    (h : t.Going env A fu₀) (hok : t.session.HeaderOk env A)
    (hr : t.session.cxt.state = .resumeService → t.Reopens env) :
    Cmd.Ends (fun _ s => ∀ l, Tracked.Going env A fu₀ ⟨s, l⟩) (fun _ => Logged env A fu₀) (sessionSwitch env t.session) := by
  rcases h with h | h
  · have hk := sessionSwitch_keeps hA hS h hok
    rcases hs : sessionSwitch env t.session with ⟨e | b, s'⟩ <;> rw [hs] at hk
    · exact hk
    · exact fun l => .inl hk
  · exact h.switch hr

/-- From the invariant of the loop, whatever the worker does next. -/
theorem Tracked.Going.runInv {t : Tracked} (h : t.Going env A fu₀) (hm : t.Current) : t.RunInv env A fu₀ := by
  rw [Tracked.RunInv]
  split
  · exact h
  · exact h
  · exact h.logged
  · rename_i r hph
    refine fun hs => ⟨h.logged, fun script => ?_⟩
    rw [Session.resume_done hph hs]
    exact h.resumed hm (fun _ => rfl) rfl rfl (p := t.session.cxt.partitionHdl) id rfl

theorem Session.leave_suspended {s : Session} {r : Except FuStatus Unit} (h : (s.leave r).cxt.sessionStatus = .suspend) :
    s.cxt.sessionStatus = .suspend ∧ s.leave r = { s.freePartitionHdl with phase := .done (.error .sessionSuspend) } := by
  rw [Session.leave] at h ⊢
  split at h
  · exact ⟨‹_›, if_pos ‹_›⟩
  · cases h

/-- A session that ends without being kept. -/
theorem Tracked.runInv_of_ended {t : Tracked} {r : Except FuStatus Unit} (hp : t.session.phase = .done r)
    (hs : t.session.cxt.sessionStatus ≠ .suspend) : t.RunInv env A fu₀ := by
  rw [Tracked.RunInv, hp]
  exact fun h => absurd h hs

/-- Making the trial FWD valid changes neither the context nor what is pending. -/
theorem Session.validate_poll_cxt (s : Session) : s.validate.poll.cxt = s.poll.cxt := by
  have hfu : ∃ fu, s.validate = { s with fu := fu } := by
    rw [Session.validate]
    split
    · exact ⟨_, rfl⟩
    · exact ⟨_, rfl⟩
  obtain ⟨fu, hfu⟩ := hfu
  rw [hfu, Session.poll, Session.poll]
  cases hr : s.script.requests <;> simp only

/-- A session in the loop that is kept by a suspend. -/
theorem Tracked.Going.kept {t : Tracked} (h : t.Going env A fu₀) (hm : t.Current) {s : Session}
    (hfu : s.fu = t.session.fu) (hv : s.verified = t.session.verified) {x : SessionStatus}
    (hc : s.cxt = { t.session.cxt with sessionStatus := x }) {r : Except FuStatus Unit} :
    (t.follow { s.freePartitionHdl with phase := .done r }).RunInv env A fu₀ := by
  have hcx : s.freePartitionHdl.cxt = { s.cxt with partitionHdl := none } := s.freePartitionHdl_cxt
  set u : Session := { s.freePartitionHdl with phase := .done r } with hu
  have hdev : u.fu.dev = t.session.fu.dev := (s.freePartitionHdl_dev).trans (congrArg Fu.dev hfu)
  have hlast : t.follow u = ⟨u, t.last⟩ := by
    refine Tracked.follow_eq hm fun p hp => ?_
    rw [Session.openPlace, show u.cxt = _ from hcx] at hp
    cases hp
  rw [hlast, Tracked.RunInv]
  refine fun hs => ⟨?_, fun script => ?_⟩
  · have hlog := h.logged
    rw [Logged] at hlog ⊢
    rwa [hdev]
  · rw [Session.resume_done (s := u) rfl hs]
    refine h.resumed hm (fun hnone => ?_) hdev ?_ (p := none) (fun _ => rfl) (x := .running) ?_
    · have hnone' : s.cxt.partitionHdl = none := by rw [hc]; exact hnone
      show s.freePartitionHdl.fu = _
      rw [Session.freePartitionHdl, hnone']
      exact hfu
    · exact (s.freePartitionHdl_verified).trans hv
    · show ({ s.freePartitionHdl.cxt with sessionStatus := .running, state := _ } : Cxt) = _
      rw [hcx, hc]

/-- `fw_upgrade_session_finalize`. -/
theorem Tracked.RunInv.finalize {t : Tracked} (h : t.RunInv env A fu₀) (hm : t.Current) (hc : t.Contains env A)
    {ret : Except FuStatus Unit} (hph : t.session.phase = .finalize ret) :
    (t.follow (t.session.poll.finalize ret)).RunInv env A fu₀ := by
  have hended : ∃ r, (t.session.poll.finalize ret).phase = .done r := by
    rw [Session.finalize]
    split
    · exact leave_done _ _
    split
    · exact ⟨_, rfl⟩
    · exact leave_done _ _
  obtain ⟨r, hr⟩ := hended
  by_cases hs : (t.session.poll.finalize ret).cxt.sessionStatus = .suspend
  swap
  · exact Tracked.runInv_of_ended hr hs
  rw [Session.finalize] at hs ⊢
  rcases hf : t.session.poll.finalRet ret with e | u <;> rw [hf] at hs <;> simp only at hs ⊢
  · -- an unfinished session is kept
    obtain ⟨hsus, heq⟩ := Session.leave_suspended hs
    rcases ret with e' | u
    · exact absurd hsus (hc.failed e' hph)
    have hg : t.Going env A fu₀ := by
      rw [Tracked.RunInv, hph] at h
      exact h
    obtain ⟨sc, st, hp⟩ := t.session.poll_eq
    obtain ⟨sc', st', hp'⟩ := t.session.poll.poll_eq
    rw [heq]
    exact hg.kept hm (by rw [hp', hp]) (by rw [hp', hp]) (x := st') (by rw [hp', hp])
  · -- one that was made valid is not
    obtain ⟨-, hfin, hok⟩ := finalRet_ok hf
    obtain ⟨sc, st, hp⟩ := t.session.poll_eq
    split at hs
    · cases hs
    · obtain ⟨hsus, -⟩ := Session.leave_suspended hs
      rw [Session.validate_poll_cxt] at hsus
      refine absurd hsus (hc.finished () (hok ▸ hph) ?_)
      rw [hp] at hfin
      exact hfin

/-- A session in the loop, once the next request has arrived. -/
theorem Tracked.RunInv.polled {t : Tracked} (h : t.RunInv env A fu₀)
    (hph : t.session.phase = .process ∨ ∃ u, t.session.phase = .finalize (.ok u)) :
    Tracked.Going env A fu₀ ⟨t.session.poll, t.last⟩ := by
  obtain ⟨sc, st, hp⟩ := t.session.poll_eq
  have hg : t.Going env A fu₀ := by
    rw [Tracked.RunInv] at h
    rcases hph with hph | ⟨u, hph⟩ <;> rw [hph] at h <;> exact h
  exact hg.keep (by rw [hp]) (by rw [hp]) (show _ = { t.session.cxt with sessionStatus := st } by rw [hp])

/-- What the machine does to a session that is running. -/
theorem Tracked.RunInv.switch (hA : A.SamePlaces (sessionArea env.cfg fu₀)) (hS : A.Sane) {t : Tracked}
    (h : t.RunInv env A fu₀) (hc : t.Contains env A) (hph : t.session.phase = .process)
    (hrun : t.session.poll.cxt.sessionStatus = .running) :
    Cmd.Ends (fun _ s => ∀ l, Tracked.Going env A fu₀ ⟨s, l⟩) (fun _ => Logged env A fu₀)
      (sessionSwitch env t.session.poll) := by
  obtain ⟨sc, st, hp⟩ := t.session.poll_eq
  have hres : t.session.poll.cxt.state = .resumeService → Tracked.Reopens env ⟨t.session.poll, t.last⟩ := by
    intro hst
    have hr : t.Reopens env := hc.resumed ⟨hph, hrun, by rw [hp] at hst; exact hst⟩
    rw [hp]
    exact fun hf i e he => ⟨⟨(hr hf i e he).1.index, (hr hf i e he).1.flag⟩, (hr hf i e he).2⟩
  exact (h.polled (.inl hph)).switch hA hS (by rw [hp]; exact hc.header) hres

/-- A pass of the worker that meets the condition. -/
theorem Tracked.RunInv.step (hA : A.SamePlaces (sessionArea env.cfg fu₀)) (hS : A.Sane) {t : Tracked}
    (h : t.RunInv env A fu₀) (hm : t.Current) (hc : t.Contains env A) :
    (t.follow (t.session.step env)).RunInv env A fu₀ := by
  obtain ⟨sc, st, hp⟩ := t.session.poll_eq
  rw [Session.step]
  split
  · rename_i hph
    have hk := h.polled (.inl hph)
    simp only
    split
    · rename_i hrun
      have hsw := h.switch hA hS hc hph hrun
      rcases hr : sessionSwitch env t.session.poll with ⟨e | _ | _, s'⟩ <;> rw [hr] at hsw
      · exact hsw
      · exact ((hsw (s'.openPlace <|> t.last)).keep rfl rfl (s := { s' with phase := .finalize (.ok ()) }) rfl).runInv
          (t.follow_current _)
      · exact (hsw (s'.openPlace <|> t.last)).runInv (t.follow_current _)
    · have hsame : t.follow { t.session.poll with phase := .finalize (.ok ()) } =
          ⟨{ t.session.poll with phase := .finalize (.ok ()) }, t.last⟩ := by
        refine Tracked.follow_eq hm fun p hpl => ?_
        rw [hp] at hpl
        exact hpl
      rw [hsame]
      exact hk.keep rfl rfl rfl
  · rename_i ret hph
    exact h.finalize hm hc hph
  · rw [Tracked.follow_eq hm fun p hpl => hpl]
    exact h

/-- `fw_upgrade_session_resume`. -/
theorem Tracked.RunInv.resume {t : Tracked} (h : t.RunInv env A fu₀) (hm : t.Current) (script : Script) :
    (t.follow (t.session.resume script)).RunInv env A fu₀ := by
  rcases t.session.resume_cases script with heq | ⟨⟨r, hph⟩, hs, heq⟩
  · rw [heq, Tracked.follow_eq hm fun p hpl => hpl]
    exact h
  · rw [Tracked.RunInv, hph] at h
    have hg := (h hs).2 script
    rw [Tracked.follow_eq hm fun p hpl => by rw [heq] at hpl; exact hpl, Tracked.RunInv]
    rw [heq] at hg ⊢
    exact hg

theorem Tracked.start_inv (flags : ℕ) (script : Script) :
    (Tracked.start (.start fu₀ flags script)).RunInv env A fu₀ ∧ (Tracked.start (.start fu₀ flags script)).Current :=
  ⟨.inl (.start (.inl rfl) ⟨rfl, rfl, rfl, rfl, fun _ => rfl, rfl, rfl, rfl, rfl⟩), fun p hp => by cases hp⟩

/-- Every run whose passes meet the condition. -/
theorem Tracked.reach_inv (hA : A.SamePlaces (sessionArea env.cfg fu₀)) (hS : A.Sane) {s t : Tracked}
    (hr : Reach (Step env A) s t) (h : s.RunInv env A fu₀ ∧ s.Current) : t.RunInv env A fu₀ ∧ t.Current := by
  refine hr.inv (P := fun t => t.RunInv env A fu₀ ∧ t.Current) h fun x y hxy hx => ?_
  cases hxy with
  | step hc => exact ⟨hx.1.step hA hS hx.2 hc, x.follow_current _⟩
  | resume script => exact ⟨hx.1.resume hx.2 script, x.follow_current _⟩

end

/-! ### What a session writes -/

/-- An upgrade session stays in its area as long as it runs or can be resumed, whatever the server sends and however
    often it is suspended and resumed, if the partitions of the active FWD do not overlap the area and every pass
    meets the condition. -/
theorem session_writes_confined (env : Env) (fu₀ : Fu) (flags : ℕ) (script : Script)
    (hS : (sessionArea env.cfg fu₀).Sane) (happ : AppApart env.cfg fu₀) (t : Tracked)
    (hr : Reach (Tracked.Step env (sessionArea env.cfg fu₀)) (.start (.start fu₀ flags script)) t)
    (hu : t.session.Usable) : t.session.Confined env.cfg fu₀ := by
  obtain ⟨h, -⟩ := Tracked.reach_inv (.refl _) hS hr (Tracked.start_inv flags script)
  have hlog : Logged env (sessionArea env.cfg fu₀) fu₀ t.session := by
    rw [Tracked.RunInv] at h
    split at h
    · exact h.logged
    · exact h.logged
    · exact h
    · exact (h (hu _ ‹_›)).1
  rcases hlog with hdev | ⟨hL, hg⟩
  · exact confined_refl _ _ hdev
  · exact hL.confined happ hg

/-- The worker's first `n` passes. -/
def Tracked.run (env : Env) (n : ℕ) (t : Tracked) : Tracked := (fun t => t.follow (t.session.step env))^[n] t

theorem Tracked.run_reach {env : Env} {A : Area} {t : Tracked} {n : ℕ} (h : ∀ m < n, (t.run env m).Contains env A) :
    Reach (Step env A) t (t.run env n) := by
  induction n with
  | zero => exact .refl
  | succ n ih =>
    have hs : t.run env (n + 1) = (t.run env n).follow ((t.run env n).session.step env) := Function.iterate_succ_apply' _ _ _
    rw [hs]
    exact .tail (ih fun m hm => h m (by omega)) (.step (h n (by omega)))

/-- The worker's first `n` passes, and some more each time the session is resumed with a script. -/
def Tracked.runs (env : Env) : ℕ → List (Script × ℕ) → Tracked → Tracked
  | n, [], t => t.run env n
  | n, (script, k) :: rs, t => runs env k rs ((t.run env n).follow ((t.run env n).session.resume script))

/-- `Q` holds before each of these passes. -/
def Tracked.Always (env : Env) (Q : Tracked → Prop) : ℕ → List (Script × ℕ) → Tracked → Prop
  | n, [], t => ∀ m < n, Q (t.run env m)
  | n, (script, k) :: rs, t => (∀ m < n, Q (t.run env m)) ∧
      Always env Q k rs ((t.run env n).follow ((t.run env n).session.resume script))

section

variable {env : Env} {Q I : Tracked → Prop}

theorem Tracked.run_inv (hstep : ∀ t, I t → Q t → I (t.follow (t.session.step env))) {t : Tracked} (h : I t) {n : ℕ}
    (hq : ∀ m < n, Q (t.run env m)) : I (t.run env n) := by
  induction n with
  | zero => exact h
  | succ n ih =>
    rw [Tracked.run, Function.iterate_succ_apply']
    exact hstep _ (ih fun m hm => hq m (by omega)) (hq n (by omega))

theorem Tracked.Always.and {R : Tracked → Prop} : ∀ {rs : List (Script × ℕ)} {n : ℕ} {t : Tracked},
    t.Always env Q n rs → t.Always env R n rs → t.Always env (fun t => Q t ∧ R t) n rs
  | [], _, _, hq, hr => fun m hm => ⟨hq m hm, hr m hm⟩
  | (_, _) :: _, _, _, hq, hr => ⟨fun m hm => ⟨hq.1 m hm, hr.1 m hm⟩, hq.2.and hr.2⟩

/-- What the passes and the resumes keep holds at the end. -/
theorem Tracked.runs_inv (hstep : ∀ t, I t → Q t → I (t.follow (t.session.step env)))
    (hres : ∀ t script, I t → I (t.follow (t.session.resume script))) {rs : List (Script × ℕ)} {n : ℕ} {t : Tracked}
    (h : I t) (hq : t.Always env Q n rs) : I (t.runs env n rs) := by
  induction rs generalizing n t with
  | nil => exact Tracked.run_inv hstep h hq
  | cons r rs ih => exact ih (hres _ r.1 (Tracked.run_inv hstep h hq.1)) hq.2

end

/-- In a larger area. -/
theorem Tracked.Contains.mono {env : Env} {A B : Area} {t : Tracked} (h : t.Contains env A)
    (hm : A.mem.size ≤ B.mem.size) (hs : A.sbl.size ≤ B.sbl.size) : t.Contains env B :=
  ⟨h.header.mono hm hs, h.resumed, h.failed, h.finished⟩

/-- An all-in-one file with `smallApp` without its last byte, then a suspend. -/
def halfScript : Script :=
  ⟨[.data (smallHeader ++ smallImage.take 2)], [], List.replicate 10 none ++ [some .suspend]⟩

/-- The session that receives it. -/
def smallHalf (n : ℕ) : Tracked := (Tracked.start (.start smallFu 0 halfScript)).run smallAppEnv n

/-- The last byte. -/
def restScript : Script := ⟨[.data (smallImage.drop 2)], [], []⟩

/-- It is resumed and receives the rest. -/
def smallRest (n : ℕ) : Tracked :=
  ((smallHalf 12).follow ((smallHalf 12).session.resume restScript)).run smallAppEnv n

/-- A pass of a session that has not failed and is not finished. -/
theorem Tracked.contains_of {env : Env} {A : Area} {t : Tracked}
    (hh : t.session.cxt.state = .processConfigFile → HeaderFits A t.session.cxt.header)
    (hr : t.session.cxt.state = .resumeService → t.Reopens env)
    (hp : t.session.phase = .process ∨ t.session.phase = .finalize (.ok ()) ∧ t.session.cxt.state ≠ .finish) :
    t.Contains env A := by
  refine ⟨fun hs _ _ => hh hs, fun hs => hr hs.2.2, fun e he => ?_, fun u _ hs => ?_⟩
  · rcases hp with hp | ⟨hp, -⟩ <;> rw [hp] at he <;> cases he
  · rcases hp with hp | ⟨-, hne⟩
    · rename_i hu
      rw [hp] at hu
      cases hu
    · exact absurd hs hne

theorem smallHalf_contains {m : ℕ} (hm : m < 12) :
    (smallHalf m).Contains smallAppEnv (sessionArea smallAppEnv.cfg smallFu) := by
  have hall : ∀ m < 12, ((smallHalf m).session.cxt.state = .processConfigFile →
        HeaderFits (sessionArea smallAppEnv.cfg smallFu) (smallHalf m).session.cxt.header) ∧
      (smallHalf m).session.cxt.state ≠ .resumeService ∧ ((smallHalf m).session.phase = .process ∨
        (smallHalf m).session.phase = .finalize (.ok ()) ∧ (smallHalf m).session.cxt.state ≠ .finish) := by
    decide +kernel
  obtain ⟨hh, hr, hp⟩ := hall m hm
  exact Tracked.contains_of hh (fun hs => absurd hs hr) hp

theorem smallRest_contains {m : ℕ} (hm : m < 6) :
    (smallRest m).Contains smallAppEnv (sessionArea smallAppEnv.cfg smallFu) := by
  have hall : (∀ m < 6, (smallRest m).session.cxt.state ≠ .processConfigFile ∧
        ((smallRest m).session.cxt.state = .resumeService → m = 0) ∧ (smallRest m).session.phase = .process) ∧
      ((smallRest 0).session.cxt.imageIndex < (smallRest 0).session.cxt.totalImages ∧
        (smallRest 0).session.cxt.downloadFlag (smallRest 0).session.cxt.imageIndex = true) ∧
      (findEntry ((smallRest 0).session.fu.dev.mem.fwd (smallRest 0).session.cxt.trialFwdIdx)
        ((smallRest 0).session.cxt.hdrAt smallAppEnv (smallRest 0).session.cxt.imageIndex).imageId).map
          (fun p => (clientOf (smallRest 0).session.cxt.trialFwdIdx p.1 p.2).place) = (smallRest 0).last := by
    decide +kernel
  obtain ⟨hall, ⟨hi, hf⟩, hlast⟩ := hall
  obtain ⟨hh, hr, hp⟩ := hall m hm
  refine Tracked.contains_of (fun hs => absurd hs hh) (fun hs => ?_) (.inl hp)
  rw [hr hs]
  intro _ i e he
  rw [he] at hlast
  exact ⟨⟨hi, hf⟩, fun _ => hlast.symm⟩

theorem session_writes_confined_small : (smallRest 6).session.phase = .finalize (.ok ()) ∧
    (smallRest 6).session.Confined smallAppEnv.cfg smallFu := by
  have hphase : (smallRest 6).session.phase = .finalize (.ok ()) := by decide +kernel
  refine ⟨hphase, session_writes_confined smallAppEnv smallFu 0 halfScript smallArea_sane smallApp_apart _ ?_
    fun r hr => ?_⟩
  · have hhalf : Reach (Tracked.Step smallAppEnv (sessionArea smallAppEnv.cfg smallFu)) _ (smallHalf 12) :=
      Tracked.run_reach fun m hm => smallHalf_contains hm
    exact (hhalf.tail (.resume _ _)).trans (Tracked.run_reach fun m hm => smallRest_contains hm)
  · rw [hphase] at hr
    cases hr

/-- Eight blocks of flash with the active FWD in block 1 and its APP image in block 7; the trial slot is block
    0 and the trial memory block 6. -/
def secondFu : Fu where
  dev := { smallFu.dev with
    mem := { smallFu.dev.mem with
      flash := Memory.ofBlocks [[], Fwd.encode ⟨fwUpgradeMagicV1, 1, 1, fwdStatusValid, 3,
        [⟨appImgId, 7, 1, 1⟩, ⟨fs1ImgId, 4, 1, 1⟩, ⟨fs2ImgId, 5, 1, 1⟩]⟩ (List.replicate 18 0xFF),
        [], [], [], [], [], [0x7F, 0x45, 0x4C, 0x46]]
      fdt := { smallFu.dev.mem.fdt with
        fde := Function.update smallFu.dev.mem.fdt.fde 2
          ⟨fdeImgIdApp, fdeImgRankCurrent, fdeImgFormatElf, 1, fdeImgStateValid, 1, 0, 0⟩ } } }
  handles := smallFu.handles

/-- The entry of an FS2 image of one block and no bytes. -/
def emptyFs2 : ImageHdr := ⟨1, fs2ImgId, 1, 4096, 0, 1, List.replicate 32 0⟩

/-- SHA-256 of the header of an all-in-one file with `emptyFs2` and `smallApp`. -/
def emptyFs2Hash : ℕ := 0x687e9f5488d39ea6018f660c79d4e743068e901a52e473345b8d2f937ccc958e

def emptyFs2Env : Env := smallEnv
  [(headerPrefix fwUpgradeMagicV1 1 2 [emptyFs2, smallApp], emptyFs2Hash), (smallImage, smallImageHash)]

/-- The session that receives this file. -/
def emptyFs2Run (n : ℕ) : Session := Session.run emptyFs2Env n (.start secondFu 0
  ⟨[.data (headerPrefix fwUpgradeMagicV1 1 2 [emptyFs2, smallApp] ++ hashValue emptyFs2Hash ++ smallImage)], [], []⟩)

/-- The entry of an FS2 image of three bytes, and SHA-256 of the header of an all-in-one file with it. -/
def smallFs2 : ImageHdr := ⟨1, fs2ImgId, 1, 4096, 3, 1, hashValue smallImageHash⟩

def smallFs2Hash : ℕ := 0x3fb9faab59965e986dd23f034fc29710c6768a6c6262e5f5ea45678de91969fb

def smallFs2Header : Bytes := headerPrefix fwUpgradeMagicV1 1 2 [smallFs2] ++ hashValue smallFs2Hash

def smallFs2Env : Env :=
  smallEnv [(headerPrefix fwUpgradeMagicV1 1 2 [smallFs2], smallFs2Hash), (smallImage, smallImageHash)]

/-- The session that receives this file, suspended before the last byte of the image and resumed. -/
def resumedFs2Run (n : ℕ) : Session := Session.run smallFs2Env n ((Session.run smallFs2Env 12 (.start secondFu 0
  ⟨[.data (smallFs2Header ++ smallImage.take 2)], [], List.replicate 10 none ++ [some .suspend]⟩)).resume
    ⟨[.data (smallImage.drop 2)], [], []⟩)

/-- Two sessions that write outside their area. The FS2 entry of a header is not counted but takes the trial memory, so
    the APP image is written over the running one. An FS2 image that fits is resumed in the hidden partition with its
    id, which is the running FS1. -/
theorem fs2_image_leaves_area :
    ((emptyFs2Run 10).phase = .process ∧ Write.erase 28672 ∈ (emptyFs2Run 10).fu.dev.log ∧
      28672 ∈ activeApp emptyFs2Env.cfg secondFu ∧ secondFu.dev.mem.flash 28672 = 0x7F ∧
      (emptyFs2Run 10).fu.dev.mem.flash 28672 = 1 ∧ ¬(emptyFs2Run 10).Confined emptyFs2Env.cfg secondFu) ∧
    HeaderFits (sessionArea smallFs2Env.cfg secondFu) smallFs2Header ∧
      Write.program 16386 [3] ∈ (resumedFs2Run 4).fu.dev.log ∧
      ¬(resumedFs2Run 4).Confined smallFs2Env.cfg secondFu := by
  -- the runs, evaluated once
  have happ : ((emptyFs2Run 10).phase = .process ∧ Write.erase 28672 ∈ (emptyFs2Run 10).fu.dev.log) ∧
      28672 ∈ activeApp emptyFs2Env.cfg secondFu ∧ secondFu.dev.mem.flash 28672 = 0x7F ∧
      (emptyFs2Run 10).fu.dev.mem.flash 28672 = 1 := by
    decide +kernel
  have hfs : HeaderFits (sessionArea smallFs2Env.cfg secondFu) smallFs2Header ∧
      Write.program 16386 [3] ∈ (resumedFs2Run 4).fu.dev.log ∧ secondFu.dev.log.length = 0 ∧
      ¬∃ q ∈ (sessionArea smallFs2Env.cfg secondFu).trialBlock :: (sessionArea smallFs2Env.cfg secondFu).data,
        16386 ∈ q := by
    decide +kernel
  obtain ⟨⟨hphase, hlog⟩, happ, hold, hnew⟩ := happ
  obtain ⟨hfit, hprog, hnil, hout⟩ := hfs
  refine ⟨⟨hphase, hlog, happ, hold, hnew, fun h => ?_⟩, hfit, hprog, fun h => hout ?_⟩
  · have := h.app 28672 happ
    rw [hold, hnew] at this
    exact absurd this (by decide)
  · refine h.flash (.program 16386 [3]) ?_ 16386 (Range.mem_mk.mpr ⟨le_rfl, by decide⟩)
    rw [hnil]
    exact hprog

end Qcc730.Upgrade
