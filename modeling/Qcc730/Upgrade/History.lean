import Mathlib.Data.List.TakeWhile
import Qcc730.Lib.Reach
import Qcc730.Upgrade.Ranks
import Qcc730.Upgrade.Resumption

/-! Histories of the FWD table.

    A device goes through upgrade sessions, accepts, rejects and boots, in any order, and a power loss can
    stop each of them after any of its writes. `FwdChange` says all that one of them can do to the three
    FWDs; the invariants of histories follow from it. -/

namespace Qcc730.Upgrade
open Lib Flash Sbl

/-! ### What a session leaves of the trial FWD -/

/-- The slot that `fw_upgrade_select_trial_fwd` returns. -/
def trialSlot (num current : ℕ) : ℕ :=
  if num = 2 then if current = 0 then 1 else 0
  else if current = 0 then 1 else if current = 1 then 2 else 1

theorem trialSlot_ne (num current : ℕ) : trialSlot num current ≠ current ∧ (num ≠ 2 → trialSlot num current ≠ 0) := by
  rw [trialSlot]
  split_ifs <;> constructor <;> intros <;> omega

theorem selectTrialFwd_index {cfg : Config} {s s' : Fu} {r : TrialRegion}
    (h : fwUpgradeSelectTrialFwd cfg s = (.ok r, s')) :
    r.fwdIndex = trialSlot cfg.fwdSupportNum (fwUpgradeGetTrialActiveFwdIndex cfg s.dev).1.current := by
  rw [fwUpgradeSelectTrialFwd] at h
  split at h
  · cases h
  obtain ⟨memSize, s₁, h₁, h⟩ := Cmd.bind_eq_ok h
  obtain ⟨imgStart, s₂, h₂, h⟩ := Cmd.bind_eq_ok h
  obtain ⟨current, s₃, h₃, h⟩ := Cmd.bind_eq_ok h
  have hd := firstProgrammingImage_dev s₁
  rw [h₂] at hd
  cases h₁
  rw [Cmd.gets_apply, Prod.mk.injEq, Except.ok.injEq] at h₃
  obtain ⟨hcur, rfl⟩ := h₃
  rw [← show s₂.dev = s.dev from hd, hcur, trialSlot]
  split at h
  · rename_i h2
    rw [if_pos h2]
    simp only at h
    generalize (if current = 0 then 1 else 0) = t at h ⊢
    split at h
    · obtain ⟨endAddr, s₄, -, h⟩ := Cmd.bind_eq_ok h
      split at h <;> cases h <;> rfl
    · cases h
      rfl
  · rename_i h2
    rw [if_neg h2]
    obtain ⟨endAddr, s₄, -, h⟩ := Cmd.bind_eq_ok h
    cases h
    rfl

/-- A write of a session or of its end. -/
def Area.Ending (A : Area) (w : Write) : Prop :=
  A.Later w ∨ w = .program (A.trial * 4096 + 12) [1] ∨ ∃ i e, w = .fde i e

/-- The device after a session that has erased the trial FWD, its end included. -/
def Wiped (A : Area) (d₀ d : Dev) : Prop :=
  A.trial < fwUpgradeMaxFwd ∧ ∃ rest, d = d₀.writes (.erase (A.trial * 4096) :: rest) ∧ ∀ w ∈ rest, A.Ending w

theorem Grown.wiped {A : Area} {d₀ d : Dev} (h : Grown A d₀ d) : Wiped A d₀ d := by
  obtain ⟨ht, rest, hd, hr⟩ := h
  exact ⟨ht, rest, hd, fun w hw => .inl (hr w hw)⟩

theorem Wiped.writes {A : Area} {d₀ d : Dev} (h : Wiped A d₀ d) {ws : List Write} (hw : ∀ w ∈ ws, A.Ending w) :
    Wiped A d₀ (d.writes ws) := by
  obtain ⟨ht, rest, rfl, hr⟩ := h
  refine ⟨ht, rest ++ ws, by rw [← Dev.writes_append, List.cons_append], ?_⟩
  intro w hm
  rcases List.mem_append.mp hm with hm | hm
  · exact hr w hm
  · exact hw w hm

theorem Wiped.cut {A : Area} {d₀ d : Dev} (h : Wiped A d₀ d) (k : ℕ) :
    d₀.writes ((d.log.drop d₀.log.length).take k) = d₀ ∨
      Wiped A d₀ (d₀.writes ((d.log.drop d₀.log.length).take k)) := by
  obtain ⟨hlt, rest, rfl, hr⟩ := h
  rw [Dev.writes_log, List.drop_left]
  rcases k with _ | k
  · exact .inl d₀.writes_nil
  · exact .inr ⟨hlt, rest.take k, rfl, fun w hw => hr w (List.mem_of_mem_take hw)⟩

/-- Where such a write falls: among the data, or in the trial FWD off its rank. -/
theorem Area.Ending.flash_mem {A : Area} {w : Write} (h : A.Ending w) {x : ℕ} (hx : x ∈ w.flashRange) :
    (∃ q ∈ A.data, x ∈ q) ∨ (x ∈ A.trialBlock ∧ ¬(A.trial * 4096 + 8 ≤ x ∧ x < A.trial * 4096 + 12)) := by
  rw [Area.trialBlock, Range.mem_mk]
  generalize ha : A.trial * 4096 = a
  rcases h with h | rfl | ⟨i, e, rfl⟩
  · obtain ⟨q, hq, hsub⟩ := h.flash
    have hm := hsub x hx
    rcases List.mem_append.mp hq with hq | hq
    · exact .inl ⟨q, hq, hm⟩
    · right
      simp only [Area.descr, List.mem_cons, List.not_mem_nil, or_false, ha] at hq
      rcases hq with rfl | rfl | rfl <;> rw [Range.mem_mk] at hm <;> omega
  · right
    rw [Write.flashRange, Range.mem_mk, ha] at hx
    simp only [List.length_singleton] at hx
    omega
  · have hm : x ∈ (⟨0, 0⟩ : Range) := hx
    rw [Range.mem_mk] at hm
    omega

section

variable {A : Area} {d₀ d : Dev}

theorem Wiped.other_fwd (h : Wiped A d₀ d) (ho : A.OffFwds) {s : ℕ} (hs : s < maxFwdNum) (hne : s ≠ A.trial) :
    d.mem.fwd s = d₀.mem.fwd s := by
  obtain ⟨-, rest, rfl, hr⟩ := h
  apply Mem.fwd_congr
  intro x hx
  rw [Range.mem_mk] at hx
  have ht : x ∉ A.trialBlock := by
    rw [Area.trialBlock, Range.mem_mk]
    omega
  refine Mem.replay_flash_out fun w hw hm => ?_
  rcases List.mem_cons.mp hw with rfl | hw
  · exact ht hm
  · rcases (hr w hw).flash_mem hm with ⟨q, hq, hxq⟩ | ⟨hxt, -⟩
    · simp only [maxFwdNum] at hs
      exact ho.not_mem hq (by simp only [fwUpgradeMaxFwd]; omega) hxq
    · exact ht hxt

theorem Wiped.trial_rank (h : Wiped A d₀ d) (ho : A.OffFwds) : (d.mem.fwd A.trial).rank = fwdRankTrial := by
  obtain ⟨hlt, rest, rfl, hr⟩ := h
  simp only [fwUpgradeMaxFwd] at hlt
  have hff : ∀ i < 4, (d₀.writes (.erase (A.trial * 4096) :: rest)).mem.flash (A.trial * 4096 + 8 + i) = 0xFF := by
    intro i hi
    rw [Dev.writes_mem, replay_cons, Mem.replay_flash_out]
    · exact Memory.erase_in (by omega) (by omega)
    · intro w hw hm
      rcases (hr w hw).flash_mem hm with ⟨q, hq, hxq⟩ | ⟨-, hn⟩
      · exact ho.not_mem hq (by simp only [fwUpgradeMaxFwd]; omega) hxq
      · omega
  show Memory.word _ (A.trial * 4096 + 8) = fwdRankTrial
  have h₀ := hff 0 (by omega)
  rw [Memory.word, hff 1 (by omega), hff 2 (by omega), hff 3 (by omega), show A.trial * 4096 + 8 = A.trial * 4096 + 8 + 0 from rfl, h₀]
  rfl

end

theorem setSblTrialFde_cases (i version : ℕ) (s : Fu) :
    (∃ e, fwUpgradeSetSblTrialFde i version s = (.error e, s)) ∨
    (s.dev.mem.fdt.Valid ∧ i < s.dev.mem.fdt.numFde ∧ (s.dev.mem.fdt.fde i).id = fdeImgIdSbl ∧
      (s.dev.mem.fdt.fde i).rank = fdeImgRankAged ∧
      fwUpgradeSetSblTrialFde i version s = (.ok (), s.writes [.fde i { s.dev.mem.fdt.fde i with
        rank := fdeImgRankTrial, state := fdeImgStateNew, version }])) := by
  rw [fwUpgradeSetSblTrialFde]
  simp only
  split
  · exact .inl ⟨_, rfl⟩
  split
  · exact .inl ⟨_, rfl⟩
  · rename_i hv hn
    rw [not_or, not_or, not_not, not_not] at hn
    exact .inr ⟨not_not.mp hv, Nat.lt_of_not_le hn.1, hn.2.1, hn.2.2, rfl⟩

/-- The writes that make the trial FWD valid. -/
theorem validate_writes {A : Area} {s : Session} (ht : s.cxt.trialFwdIdx = A.trial) (hlt : A.trial < maxFwdNum)
    (hd : HasFwds s.fu.dev) : ∃ ws, s.validate.fu.dev = s.fu.dev.writes ws ∧ ∀ w ∈ ws, A.Ending w := by
  have hst : A.Ending (.program (A.trial * 4096 + 12) [1]) := .inr (.inl rfl)
  have hend : ∀ w ∈ [Write.program (A.trial * 4096 + 12) [1]], A.Ending w := fun w hw => by
    rw [List.mem_singleton.mp hw]
    exact hst
  have hset : fwUpgradeSetFwdInfo s.cxt.trialFwdIdx .status fwdStatusValid s.fu =
      (.ok (), s.fu.writes [.program (A.trial * 4096 + 12) [1]]) := by
    rw [ht]
    exact setFwdInfo_eq hd hlt .status fwdStatusValid
  rw [Session.validate, hset]
  have hf := findPartition_dev s.cxt.trialFwdIdx sblImgId (s.fu.writes [.program (A.trial * 4096 + 12) [1]])
  simp only
  rcases hr : fwUpgradeFindPartition s.cxt.trialFwdIdx sblImgId
    (s.fu.writes [.program (A.trial * 4096 + 12) [1]]) with ⟨e | h, fu⟩ <;> rw [hr] at hf
  · exact ⟨_, hf, hend⟩
  · simp only
    rcases setSblTrialFde_cases s.cxt.trialSblIdx (fu.handles h).imgVersion fu with ⟨e, he⟩ | ⟨-, -, -, -, he⟩ <;> rw [he]
    · exact ⟨_, hf, hend⟩
    · generalize { fu.dev.mem.fdt.fde s.cxt.trialSblIdx with
        rank := fdeImgRankTrial, state := fdeImgStateNew, version := (fu.handles h).imgVersion } = en
      refine ⟨[.program (A.trial * 4096 + 12) [1], .fde s.cxt.trialSblIdx en], ?_, ?_⟩
      · rw [Fu.writes_dev, show fu.dev = _ from hf, Fu.writes_dev, ← Dev.writes_append, List.singleton_append]
      · intro w hw
        simp only [List.mem_cons, List.not_mem_nil, or_false] at hw
        rcases hw with rfl | rfl
        · exact hst
        · exact .inr (.inr ⟨_, _, rfl⟩)

/-- The device was left alone, or the trial FWD was wiped. -/
abbrev WipedFrom (env : Env) (A : Area) (fu₀ : Fu) (d : Dev) : Prop :=
  d = fu₀.dev ∨ Layout env.cfg fu₀ A ∧ Wiped A fu₀.dev d

section

variable {env : Env} {A : Area} {fu₀ : Fu} {s : Session}

theorem Logged.wiped (h : Logged env A fu₀ s) : WipedFrom env A fu₀ s.fu.dev := by
  rcases h with hl | ⟨hL, hg⟩
  · exact .inl hl
  · exact .inr ⟨hL, hg.wiped⟩

/-- Making the trial FWD valid. -/
theorem Inv.validate_wiped (h : Inv env A fu₀ s) (hst : s.cxt.state = .finish) (hd : HasFwds fu₀.dev) :
    WipedFrom env A fu₀ s.validate.fu.dev := by
  cases h with
  | placed hs hL hg htr hv ht =>
    have hd₁ : HasFwds s.fu.dev := by
      rw [HasFwds, hg.density]
      exact hd
    obtain ⟨ws, hws, hend⟩ := validate_writes htr hg.1 hd₁
    rw [hws]
    exact .inr ⟨hL, hg.wiped.writes hend⟩
  | start hs => simp [hst] at hs
  | chosen hs => simp [hst] at hs
  | early hs => simp [hst] at hs
  | between hs => simp [hst] at hs
  | image hs => simp [hst] at hs
  | copies hs => simp [hst] at hs

/-- What holds of a session that was resumed does not hold of one that is finished. -/
theorem Tracked.Going.finished {t : Tracked} (h : t.Going env A fu₀) (hst : t.session.cxt.state = .finish) :
    Inv env A fu₀ t.session := by
  rcases h with h | h
  · exact h
  · cases h with
    | early hs => simp [hst] at hs
    | waiting hs => simp [hst] at hs
    | image hs => simp [hst] at hs
    | downloaded hs => simp [hst] at hs

/-- A session, at any time, has left the device alone or wiped the trial FWD. -/
theorem RunInv.wiped (h : RunInv env A fu₀ s) (hd : HasFwds fu₀.dev) : WipedFrom env A fu₀ s.fu.dev := by
  by_cases hn : ∀ r, s.phase ≠ .done r
  · exact (h.logged hn).wiped
  · push Not at hn
    obtain ⟨r, hr⟩ := hn
    rw [RunInv, hr] at h
    rcases h with h | ⟨s₁, hi, hst, -, hdev⟩
    · exact h.wiped
    · rw [hdev]
      exact hi.validate_wiped hst hd

/-- `fw_upgrade_session_finalize`, of a session that was resumed or not. -/
theorem Tracked.RunInv.finalize_wiped {t : Tracked} (h : t.RunInv env A fu₀) (hd : HasFwds fu₀.dev)
    (hw : WipedFrom env A fu₀ t.session.fu.dev) {ret : Except FuStatus Unit} (hph : t.session.phase = .finalize ret) :
    WipedFrom env A fu₀ (t.session.poll.finalize ret).fu.dev := by
  rw [Session.finalize]
  rcases hf : t.session.poll.finalRet ret with e | u
  · simp only [Session.leave_dev, Session.poll_fu]
    exact hw
  · obtain ⟨-, hfin, hok⟩ := finalRet_ok hf
    have hv := ((h.polled (.inr ⟨(), hok ▸ hph⟩)).finished hfin).validate_wiped hfin hd
    simp only
    split
    · show WipedFrom env A fu₀ t.session.poll.validate.fin.fu.dev
      rw [Session.fin_dev]
      exact hv
    · rw [Session.leave_dev, Session.poll_fu]
      exact hv

/-- A pass of the worker, of a session that was resumed or not. -/
theorem Tracked.RunInv.step_wiped (hA : A.SamePlaces (sessionArea env.cfg fu₀)) (hS : A.Sane) {t : Tracked}
    (h : t.RunInv env A fu₀) (hc : t.Contains env A) (hd : HasFwds fu₀.dev)
    (hw : WipedFrom env A fu₀ t.session.fu.dev) : WipedFrom env A fu₀ (t.session.step env).fu.dev := by
  rw [Session.step]
  split
  · rename_i hph
    simp only
    split
    · rename_i hrun
      have hsw := h.switch hA hS hc hph hrun
      rcases hr : sessionSwitch env t.session.poll with ⟨e | _ | _, s'⟩ <;> rw [hr] at hsw
      · exact hsw.wiped
      · exact (hsw none).logged.wiped
      · exact (hsw none).logged.wiped
    · show WipedFrom env A fu₀ t.session.poll.fu.dev
      rw [Session.poll_fu]
      exact hw
  · exact h.finalize_wiped hd hw ‹_›
  · exact hw

theorem Session.resume_fu (s : Session) (script : Script) : (s.resume script).fu = s.fu := by
  rcases s.resume_cases script with h | ⟨-, -, h⟩ <;> rw [h]

/-- All passes of a session, of which the ones after a resume meet the condition. -/
theorem Tracked.runs_wiped (hA : A.SamePlaces (sessionArea env.cfg fu₀)) (hS : A.Sane) (hd : HasFwds fu₀.dev)
    (flags : ℕ) (script : Script) {n : ℕ} {rs : List (Script × ℕ)}
    (hc : (Tracked.start (.start fu₀ flags script)).Always env (fun t => t.Contains env A) n rs) :
    WipedFrom env A fu₀ ((Tracked.start (.start fu₀ flags script)).runs env n rs).session.fu.dev := by
  have hinv := Tracked.runs_inv (Q := fun t => t.Contains env A)
    (I := fun t => (t.RunInv env A fu₀ ∧ t.Current) ∧ WipedFrom env A fu₀ t.session.fu.dev)
    (fun t h hq => ⟨⟨h.1.1.step hA hS h.1.2 hq, t.follow_current _⟩, h.1.1.step_wiped hA hS hq hd h.2⟩)
    (fun t sc h => ⟨⟨h.1.1.resume h.1.2 sc, t.follow_current _⟩, by
      show WipedFrom env A fu₀ (t.session.resume sc).fu.dev
      rw [Session.resume_fu]
      exact h.2⟩)
    ⟨Tracked.start_inv flags script, .inl rfl⟩ hc
  exact hinv.2

/-- Without a resume these are the passes of the session. -/
theorem Tracked.run_session (env : Env) (n : ℕ) (t : Tracked) : (t.run env n).session = Session.run env n t.session := by
  induction n with
  | zero => rfl
  | succ n ih =>
    rw [Tracked.run, Function.iterate_succ_apply', Session.run, Function.iterate_succ_apply']
    exact congrArg (Session.step env) ih

end

/-! ### Ending a trial -/

/-- An accept takes the current FWD out: not if it is the golden one. -/
def Replaces (num : ℕ) (v : TrialActive) : Prop := num = 2 ∨ (num = 3 ∧ v.current ≠ 0)

instance (num : ℕ) (v : TrialActive) : Decidable (Replaces num v) := inferInstanceAs (Decidable (_ ∨ _))

/-- The writes of `fw_upgrade_accept_trial_fwd`. -/
def acceptWrites (num : ℕ) (r : TrialActive) : List Write :=
  .program (r.trial * 4096 + 8) (le32 (u32 (r.rank + 1))) ::
    if Replaces num r then [.program (r.current * 4096 + 12) [0]] else []

/-- The writes of `fw_upgrade_reject_trial_fwd` to the trial FWD. -/
def rejectWrites (trial : ℕ) : List Write := [.program (trial * 4096 + 12) [0], .program (trial * 4096 + 8) (le32 1)]

/-- The FDT entry that a reject takes back: the first SBL entry on trial, if the FWD has an SBL entry and there is
    a handle to find it with. -/
def revertedFde (s : Fu) (trial : ℕ) : Option ℕ :=
  if s.clientEntry?.isSome ∧ (findEntry (s.dev.mem.fwd trial) sblImgId).isSome ∧ s.dev.mem.fdt.Valid then
    s.dev.mem.fdt.findIdx? fun e => e.id == fdeImgIdSbl && e.rank == fdeImgRankTrial
  else none

/-- Its writes to the FDT. -/
def revertWrites (s : Fu) (trial : ℕ) : List Write :=
  ((revertedFde s trial).map fun i => Write.fde i { s.dev.mem.fdt.fde i with
    rank := fdeImgRankAged, state := fdeImgStateInvalid }).toList

theorem revertWrites_fde {s : Fu} {trial : ℕ} {w : Write} (h : w ∈ revertWrites s trial) : ∃ i e, w = .fde i e := by
  obtain ⟨i, -, rfl⟩ := Option.map_eq_some_iff.mp (Option.mem_toList.mp h)
  exact ⟨_, _, rfl⟩

theorem findPartition_some {f id h i : ℕ} {s : Fu} {e : ImageEntry} (hlt : f < fwUpgradeMaxFwd)
    (hc : s.clientEntry? = some h) (hin : s.dev.InFlash (f * 4096) 512)
    (hf : findEntry (s.dev.mem.fwd f) id = some (i, e)) :
    fwUpgradeFindPartition f id s = (.ok h, s.setHandle h (clientOf f i e)) := by
  obtain ⟨e', he, hi⟩ := Option.map_eq_some_iff.mp hf
  cases hi
  rw [fwUpgradeFindPartition, if_neg (by omega), hc]
  simp only [Fu.readFwd_of_inFlash hin, he]

/-- The FWD after the writes of a reject. -/
theorem fwd_rejected {m : Mem} {t : ℕ} (h : (m.fwd t).rank = fwdRankTrial) :
    (replay Mem.app m (rejectWrites t)).fwd t = { m.fwd t with status := 0, rank := 1 } := by
  rw [rejectWrites, replay_cons, replay_cons, replay_nil]
  have h₁ := fwd_program_status m t
  rw [fwd_program_rank (by rw [h₁]; exact h) (by decide), h₁]

section

variable {cfg : Config} {s : Fu} (hc : cfg.fwdSupportNum = 2 ∨ cfg.fwdSupportNum = 3) (hd : HasFwds s.dev)

include hc hd

/-- `fw_upgrade_accept_trial_fwd` fails, or it makes its writes. -/
theorem accept_eq (uninit : ℕ) : fwUpgradeAcceptTrialFwd cfg uninit s =
    if (scanView cfg.fwdSupportNum s.dev.mem.fwd).trial ≠ fwdTrialUnused ∧
      (fwdBootType? s.dev.mem.fdt).getD uninit = fwdBootTypeTrial then
      (.ok (), s.writes (acceptWrites cfg.fwdSupportNum (scanView cfg.fwdSupportNum s.dev.mem.fwd)))
    else (.error .error, s) := by
  rw [fwUpgradeAcceptTrialFwd, Cmd.bind_ok (Cmd.gets_apply _ _), getTrialActive_eq hd hc]
  generalize hr : scanView cfg.fwdSupportNum s.dev.mem.fwd = r
  simp only
  by_cases hok : r.trial ≠ fwdTrialUnused
  swap
  · rw [if_neg (by simpa using hok), Cmd.fail_apply, if_neg fun h => hok h.1]
  rw [if_pos (by simpa using hok), Cmd.bind_ok (Cmd.gets_apply _ _)]
  by_cases hb : (fwdBootType? s.dev.mem.fdt).getD uninit = fwdBootTypeTrial
  swap
  · rw [if_neg hb, Cmd.fail_apply, if_neg fun h => hb h.2]
  have htr : r.trial < maxFwdNum := by
    have := (@scanView_trial cfg.fwdSupportNum s.dev.mem.fwd (hr ▸ hok)).1
    rw [hr] at this
    exact scanSlots_lt this
  have hcur : r.current < maxFwdNum := hr ▸ scanView_current_lt _ _
  rw [if_pos hb, if_pos (show r.trial ≠ fwdTrialUnused ∧ _ from ⟨hok, hb⟩), Cmd.bind_ok (setFwdInfo_eq hd htr .rank _),
    acceptWrites]
  by_cases hn : cfg.fwdSupportNum = 2 ∨ (cfg.fwdSupportNum = 3 ∧ r.current ≠ 0)
  · rw [if_pos hn, if_pos (show Replaces _ _ from hn), setFwdInfo_eq (s := s.writes _) hd hcur .status 0, Fu.writes,
      Fu.writes, Fu.writes, ← Dev.writes_append]
    rfl
  · rw [if_neg hn, if_neg (show ¬Replaces _ _ from hn)]
    rfl

theorem accept_cases (uninit : ℕ) :
    (fwUpgradeAcceptTrialFwd cfg uninit s).2.dev = s.dev ∨
    ((scanView cfg.fwdSupportNum s.dev.mem.fwd).trial ≠ fwdTrialUnused ∧
      (fwdBootType? s.dev.mem.fdt).getD uninit = fwdBootTypeTrial ∧
      (fwUpgradeAcceptTrialFwd cfg uninit s).2.dev =
        s.dev.writes (acceptWrites cfg.fwdSupportNum (scanView cfg.fwdSupportNum s.dev.mem.fwd))) := by
  rw [accept_eq hc hd]
  split
  · rename_i h
    exact .inr ⟨h.1, h.2, rfl⟩
  · exact .inl rfl

theorem reject_cases :
    (fwUpgradeRejectTrialFwd cfg s).2.dev = s.dev ∨
    ((scanView cfg.fwdSupportNum s.dev.mem.fwd).trial ≠ fwdTrialUnused ∧
      (fwUpgradeRejectTrialFwd cfg s).2.dev = s.dev.writes
        (rejectWrites (scanView cfg.fwdSupportNum s.dev.mem.fwd).trial ++
          revertWrites s (scanView cfg.fwdSupportNum s.dev.mem.fwd).trial)) := by
  rw [fwUpgradeRejectTrialFwd, Cmd.bind_ok (Cmd.gets_apply _ _), getTrialActive_eq hd hc]
  generalize hr : scanView cfg.fwdSupportNum s.dev.mem.fwd = r
  simp only
  by_cases hok : r.trial ≠ fwdTrialUnused
  swap
  · left
    rw [if_neg (by simpa using hok), Cmd.fail_apply]
  refine .inr ⟨hok, ?_⟩
  obtain ⟨hm, hon⟩ := @scanView_trial cfg.fwdSupportNum s.dev.mem.fwd (hr ▸ hok)
  rw [hr] at hm hon
  have htr : r.trial < maxFwdNum := scanSlots_lt hm
  rw [if_pos (by simpa using hok), Cmd.bind_ok (setFwdInfo_eq hd htr .status 0),
    Cmd.bind_ok (setFwdInfo_eq (s := s.writes _) hd htr .rank 1)]
  generalize hs : (s.writes [.program (r.trial * 4096 + FwdInfo.status.offset) (FwdInfo.status.encode 0)]).writes
    [.program (r.trial * 4096 + FwdInfo.rank.offset) (FwdInfo.rank.encode 1)] = s₂
  have hdev : s₂.dev = s.dev.writes (rejectWrites r.trial) := by
    rw [← hs, Fu.writes_dev, Fu.writes_dev, ← Dev.writes_append]
    rfl
  have hhdl : s₂.clientEntry? = s.clientEntry? := by
    rw [← hs]
    rfl
  have hent : findEntry (s₂.dev.mem.fwd r.trial) sblImgId = findEntry (s.dev.mem.fwd r.trial) sblImgId := by
    rw [hdev, Dev.writes_mem, fwd_rejected hon.2]
    rfl
  have hfdt : s₂.dev.mem.fdt = s.dev.mem.fdt := by
    rw [← hs]
    rfl
  rw [Dev.writes_append, ← hdev, revertWrites, revertedFde]
  rw [Cmd.bind_apply, Cmd.attempt]
  rcases findPartition_cases r.trial sblImgId s₂ with ⟨e, hp⟩ | ⟨h, i, en, -, hcl, -, hfe, hp⟩
  · -- without a handle or without an SBL entry
    have hno : ¬(s.clientEntry?.isSome ∧ (findEntry (s.dev.mem.fwd r.trial) sblImgId).isSome ∧ s.dev.mem.fdt.Valid) := by
      rintro ⟨h₁, h₂, -⟩
      obtain ⟨h, hh⟩ := Option.isSome_iff_exists.mp h₁
      obtain ⟨⟨i, en⟩, he⟩ := Option.isSome_iff_exists.mp h₂
      have hd₂ : HasFwds s₂.dev := by
        rw [hdev]
        exact hd
      have hin := hd₂.inFlash (o := 0) (n := 512) htr (by omega) (by omega)
      rw [Nat.add_zero] at hin
      rw [findPartition_some htr (hhdl.trans hh) hin (hent.trans he)] at hp
      cases hp
    rw [if_neg hno, hp, Option.map_none, Option.toList_none, Dev.writes_nil]
    cases e <;> rfl
  rw [hp]
  simp only [fwUpgradeRejectSblTrialFde]
  change (if ¬s₂.dev.mem.fdt.Valid then _ else _ : Except FuStatus Unit × Fu).2.dev = _
  by_cases hv : s.dev.mem.fdt.Valid
  swap
  · rw [hfdt, if_pos hv, if_neg fun hx => hv hx.2.2, Option.map_none, Option.toList_none, Dev.writes_nil]
    rfl
  rw [if_neg (by rw [hfdt]; exact not_not.mpr hv), if_pos ⟨by rw [← hhdl, hcl]; rfl, by rw [← hent, hfe]; rfl, hv⟩]
  have hset : (s₂.setHandle h (clientOf r.trial i en)).dev.mem.fdt = s.dev.mem.fdt := hfdt
  rw [hset]
  rcases s.dev.mem.fdt.findIdx? (fun e => e.id == fdeImgIdSbl && e.rank == fdeImgRankTrial) with _ | j
  · rw [Option.map_none, Option.toList_none, Dev.writes_nil]
    rfl
  · rw [Option.map_some, Option.toList_some]
    rfl

end

/-! ### Events -/

/-- What happens to a device: a session, some passes long and then some more each time it is resumed; an accept; a
    reject; a boot. What is in the pool of handles, and what the primary boot loader leaves in RRAM, is arbitrary. -/
inductive Event where
  | session (handles : ℕ → Client) (flags : ℕ) (script : Script) (passes : ℕ) (resumes : List (Script × ℕ))
  | accept (handles : ℕ → Client) (uninit : ℕ)
  | reject (handles : ℕ → Client)
  | boot (rram : Memory) (fdt : Fdt) (pbl : PblShare) (faults : List (Option Fault))

/-- The event is an accept. -/
def Event.IsAccept : Event → Prop
  | .accept _ _ => True
  | _ => False

theorem Event.IsAccept.eq {e : Event} (h : e.IsAccept) : ∃ handles uninit, e = .accept handles uninit := by
  cases e with
  | accept handles uninit => exact ⟨handles, uninit, rfl⟩
  | session handles flags script passes resumes => exact h.elim
  | reject handles => exact h.elim
  | boot rram fdt pbl faults => exact h.elim

/-- The device when the event begins. -/
def Event.before (d : Dev) : Event → Dev
  | .boot rram fdt _ _ => { d with mem := { d.mem with rram, fdt } }
  | _ => d

/-- The device after the event, if nothing stops it. -/
def Event.full (env : Env) (d : Dev) : Event → Dev
  | .session handles flags script passes resumes =>
    ((Tracked.start (.start ⟨d, handles⟩ flags script)).runs env passes resumes).session.fu.dev
  | .accept handles uninit => (fwUpgradeAcceptTrialFwd env.cfg uninit ⟨d, handles⟩).2.dev
  | .reject handles => (fwUpgradeRejectTrialFwd env.cfg ⟨d, handles⟩).2.dev
  | .boot _ _ pbl faults => (loaderStart pbl faults d).2.sbl.dev

/-- The device after the event, stopped after `k` of its writes. -/
def Event.cut (env : Env) (d : Dev) (e : Event) (k : ℕ) : Dev :=
  (e.before d).writes (((e.full env (e.before d)).log.drop (e.before d).log.length).take k)

/-- The FWDs, and the image entries each had when it was last accepted or factory-written. -/
structure Table where
  dev : Dev
  accepted : ℕ → List ImageEntry

/-- A factory-written table. -/
def Table.factory (d : Dev) : Table := ⟨d, fun s => (d.mem.fwd s).imageEntries⟩

/-- After an accept, the entries of a FWD that is no longer on trial. -/
def noteAccepted (d d' : Dev) (acc : ℕ → List ImageEntry) (s : ℕ) : List ImageEntry :=
  if (d.mem.fwd s).rank = fwdRankTrial ∧ (d'.mem.fwd s).rank ≠ fwdRankTrial then (d'.mem.fwd s).imageEntries else acc s

/-- One event. -/
def Table.after (env : Env) (t : Table) (e : Event) (k : ℕ) : Table where
  dev := e.cut env t.dev k
  accepted := match e with
    | .accept _ _ => noteAccepted t.dev (e.cut env t.dev k) t.accepted
    | _ => t.accepted

/-- An event, cut anywhere, that `ok` allows. -/
def Table.Step (env : Env) (ok : Dev → Event → ℕ → Prop) (t t' : Table) : Prop :=
  ∃ e k, ok t.dev e k ∧ t' = t.after env e k

/-- The condition on a session: its places lie behind the FWD blocks, and headers that pass the checks do not
    place images past 2 GB. If it is resumed, each time it goes on with its own partition, and it is not one that
    had failed or was made valid. -/
def SessionOk (env : Env) (d : Dev) : Event → Prop
  | .session handles flags script passes resumes => Spacious env.cfg ⟨d, handles⟩ ∧
      (∀ m, (Session.run env m (.start ⟨d, handles⟩ flags script)).HeaderOk env (wideArea env.cfg ⟨d, handles⟩)) ∧
      (resumes ≠ [] → (Tracked.start (.start ⟨d, handles⟩ flags script)).Always env
        (fun t => t.Contains env (wideArea env.cfg ⟨d, handles⟩)) passes resumes)
  | _ => True

/-! ### What one event can do -/

/-- Give the trial the next rank. -/
def promote (v : TrialActive) (f : ℕ → Fwd) : ℕ → Fwd :=
  Function.update f v.trial { f v.trial with rank := u32 (v.rank + 1) }

/-- Take a FWD out. -/
def retire (c : ℕ) (f : ℕ → Fwd) : ℕ → Fwd := Function.update f c { f c with status := 0 }

theorem fwd_promote {m : Mem} {v : TrialActive} (hon : OnTrial (m.fwd v.trial)) (s : ℕ) :
    (m.app (.program (v.trial * 4096 + 8) (le32 (u32 (v.rank + 1))))).fwd s = promote v m.fwd s := by
  rw [promote]
  by_cases hs : s = v.trial
  · rw [hs, Function.update_self, fwd_program_rank hon.2 (u32_lt _)]
  · rw [Function.update_of_ne hs, fwd_program_other hs (by simp)]

theorem fwd_retire (m : Mem) (c s : ℕ) : (m.app (.program (c * 4096 + 12) [0])).fwd s = retire c m.fwd s := by
  rw [retire]
  by_cases hs : s = c
  · rw [hs, Function.update_self, fwd_program_status]
  · rw [Function.update_of_ne hs, fwd_program_other hs (by simp)]

/-- What the event `e`, stopped after `k` writes, can do to the FWDs `f`. -/
inductive FwdChange (num : ℕ) (e : Event) (k : ℕ) (f f' : ℕ → Fwd) : Prop
  /-- nothing -/
  | same (hf : ∀ s < maxFwdNum, f' s = f s)
  /-- a FWD that is neither the current nor the golden one is no longer, or not yet, in use -/
  | out (t : ℕ) (hne : t ≠ (scanView num f).current) (h0 : num ≠ 2 → t ≠ 0)
      (hf : ∀ s < maxFwdNum, s ≠ t → f' s = f s) (ht : ¬(FwdIsValid (f' t) ∧ (f' t).rank ≠ fwdRankTrial))
  /-- the trial has its rank, and the accept was stopped there or does no more -/
  | promoted (he : e.IsAccept) (hot : (scanView num f).trial ≠ fwdTrialUnused)
      (hk : k = 1 ∨ ¬Replaces num (scanView num f)) (hf : ∀ s < maxFwdNum, f' s = promote (scanView num f) f s)
  /-- the trial has taken the place of the current FWD -/
  | replaced (he : e.IsAccept) (hot : (scanView num f).trial ≠ fwdTrialUnused)
      (hn : Replaces num (scanView num f))
      (hf : ∀ s < maxFwdNum, f' s = retire (scanView num f).current (promote (scanView num f) f) s)

theorem out_of_wiped {A : Area} {d₀ d : Dev} {num k : ℕ} {e : Event} (h : Wiped A d₀ d) (ho : A.OffFwds)
    (hne : A.trial ≠ (scanView num d₀.mem.fwd).current) (h0 : num ≠ 2 → A.trial ≠ 0) :
    FwdChange num e k d₀.mem.fwd d.mem.fwd :=
  .out A.trial hne h0 (fun _ hs hst => h.other_fwd ho hs hst) fun hv => hv.2 (h.trial_rank ho)

/-- A session that meets the condition, however often it is resumed. -/
theorem session_wiped {env : Env} {d : Dev} (hd : HasFwds d) {handles : ℕ → Client} {flags passes : ℕ} {script : Script}
    {resumes : List (Script × ℕ)} (hok : SessionOk env d (.session handles flags script passes resumes)) :
    WipedFrom env (wideArea env.cfg ⟨d, handles⟩) ⟨d, handles⟩
      ((Event.session handles flags script passes resumes).full env d) := by
  obtain ⟨hsp, hhd, hres⟩ := hok
  rw [Event.full]
  cases resumes with
  | nil =>
    rw [Tracked.runs, Tracked.run_session]
    exact (run_inv (wideArea_samePlaces _ _) hsp.sane (start_inv flags script) hhd passes).wiped hd
  | cons r rs => exact Tracked.runs_wiped (wideArea_samePlaces _ _) hsp.sane hd flags script (hres (List.cons_ne_nil r rs))

section

variable {env : Env} {d : Dev} (hc : env.cfg.fwdSupportNum = 2 ∨ env.cfg.fwdSupportNum = 3) (hd : HasFwds d)

include hc hd

theorem session_change {handles : ℕ → Client} {flags passes : ℕ} {script : Script} {resumes : List (Script × ℕ)}
    (hok : SessionOk env d (.session handles flags script passes resumes)) (k : ℕ) :
    FwdChange env.cfg.fwdSupportNum (.session handles flags script passes resumes) k d.mem.fwd
      ((Event.session handles flags script passes resumes).cut env d k).mem.fwd := by
  have hwiped := session_wiped hd hok
  simp only [Event.cut, Event.before, Event.full] at hwiped ⊢
  rcases hwiped with hdev | ⟨hL, hw⟩
  · rw [hdev, List.drop_length, List.take_nil, Dev.writes_nil]
    exact .same fun _ _ => rfl
  · rcases hw.cut k with heq | hw'
    · rw [heq]
      exact .same fun _ _ => rfl
    · have hidx : (wideArea env.cfg ⟨d, handles⟩).trial =
          trialSlot env.cfg.fwdSupportNum (scanView env.cfg.fwdSupportNum d.mem.fwd).current := by
        rcases hr : fwUpgradeSelectTrialFwd env.cfg ⟨d, handles⟩ with ⟨e | r, fu⟩
        · have := hL.selected
          rw [hr] at this
          cases this
        · have hi := selectTrialFwd_index hr
          rw [getTrialActive_eq (d := (⟨d, handles⟩ : Fu).dev) hd hc] at hi
          rw [← hi]
          show (trialRegion env.cfg ⟨d, handles⟩).fwdIndex = _
          rw [trialRegion, hr]
      obtain ⟨hne, h0⟩ := trialSlot_ne env.cfg.fwdSupportNum (scanView env.cfg.fwdSupportNum d.mem.fwd).current
      rw [← hidx] at hne h0
      exact out_of_wiped hw' hok.1.offFwds hne h0

/-- An accept. -/
theorem accept_change (handles : ℕ → Client) (uninit k : ℕ) :
    FwdChange env.cfg.fwdSupportNum (.accept handles uninit) k d.mem.fwd
      ((Event.accept handles uninit).cut env d k).mem.fwd := by
  simp only [Event.cut, Event.before, Event.full]
  rcases accept_cases (s := ⟨d, handles⟩) hc hd uninit with heq | ⟨hot, -, heq⟩
  · rw [heq, List.drop_length, List.take_nil, Dev.writes_nil]
    exact .same fun _ _ => rfl
  rw [heq, Dev.writes_log, List.drop_left]
  obtain ⟨hm, hon⟩ := scanView_trial hot
  generalize hv : scanView env.cfg.fwdSupportNum d.mem.fwd = v at *
  have hprom := fwd_promote (m := d.mem) (v := v) hon
  rw [acceptWrites]
  rcases k with _ | _ | k
  · rw [List.take_zero, Dev.writes_nil]
    exact .same fun _ _ => rfl
  · exact .promoted trivial (hv ▸ hot) (.inl rfl) (by rw [hv]; exact fun s _ => hprom s)
  · rw [List.take_succ_cons]
    by_cases hn : Replaces env.cfg.fwdSupportNum v
    · rw [if_pos hn, List.take_succ_cons, List.take_nil]
      refine .replaced trivial (hv ▸ hot) (hv ▸ hn) ?_
      intro s hs
      rw [hv, Dev.writes_mem, replay_cons, replay_cons, replay_nil, fwd_retire]
      exact congrArg (fun f => retire v.current f s) (funext hprom)
    · rw [if_neg hn, List.take_nil]
      exact .promoted trivial (hv ▸ hot) (.inr (hv ▸ hn)) (by rw [hv]; exact fun s _ => hprom s)

/-- A reject, when the current FWD is not itself on trial. -/
theorem reject_change (hcur : (d.mem.fwd (scanView env.cfg.fwdSupportNum d.mem.fwd).current).rank ≠ fwdRankTrial)
    (handles : ℕ → Client) (k : ℕ) :
    FwdChange env.cfg.fwdSupportNum (.reject handles) k d.mem.fwd ((Event.reject handles).cut env d k).mem.fwd := by
  simp only [Event.cut, Event.before, Event.full]
  rcases reject_cases (s := ⟨d, handles⟩) hc hd with heq | ⟨hot, heq⟩
  · rw [heq, List.drop_length, List.take_nil, Dev.writes_nil]
    exact .same fun _ _ => rfl
  rw [heq, Dev.writes_log, List.drop_left]
  obtain ⟨hm, hon⟩ := scanView_trial hot
  generalize hv : scanView env.cfg.fwdSupportNum d.mem.fwd = v at *
  have hws : ∀ w ∈ revertWrites ⟨d, handles⟩ v.trial, ∃ i e, w = .fde i e := fun w hw => revertWrites_fde hw
  generalize revertWrites ⟨d, handles⟩ v.trial = ws at *
  rcases k with _ | k
  · rw [List.take_zero, Dev.writes_nil]
    exact .same fun _ _ => rfl
  have hstatus := fwd_program_status d.mem v.trial
  -- every later write is to the rank of the same FWD or to the FDT
  have hlater : ∀ w ∈ (Write.program (v.trial * 4096 + 8) (le32 1) :: ws).take k,
      ∀ x, w.flashRange = ⟨v.trial * 4096 + 8, 4⟩ ∨ x ∉ w.flashRange := by
    intro w hw x
    rcases List.mem_cons.mp (List.mem_of_mem_take hw) with rfl | hw
    · exact .inl rfl
    · obtain ⟨i, e, rfl⟩ := hws w hw
      right
      show x ∉ (⟨0, 0⟩ : Range)
      rw [Range.mem_mk]
      omega
  have hout : ∀ x, ¬(v.trial * 4096 + 8 ≤ x ∧ x < v.trial * 4096 + 12) →
      (d.writes ((rejectWrites v.trial ++ ws).take (k + 1))).mem.flash x =
        (d.mem.app (.program (v.trial * 4096 + 12) [0])).flash x := by
    intro x hx
    show (replay Mem.app (d.mem.app _) (List.take k (_ :: ws))).flash x = _
    refine Mem.replay_flash_out fun w hw hm => ?_
    rcases hlater w hw x with h | h
    · rw [h, Range.mem_mk] at hm
      omega
    · exact h hm
  refine .out v.trial ?_ ?_ ?_ ?_
  · rw [hv]
    exact fun h => hcur (h ▸ hon.2)
  · intro h2 h0
    rw [scanSlots, if_neg h2, h0] at hm
    simp at hm
  · intro s hs hne
    rw [← fwd_program_other (m := d.mem) (o := 12) (b := [0]) hne (by simp)]
    apply Mem.fwd_congr
    intro x hx
    rw [Range.mem_mk] at hx
    exact hout x (by omega)
  · intro hval
    have hst := hval.1.2
    have h12 := hout (v.trial * 4096 + 12) (by omega)
    have h0 : (d.mem.app (.program (v.trial * 4096 + 12) [0])).flash (v.trial * 4096 + 12) = 0 := by
      have := congrArg Fwd.status hstatus
      exact UInt8.toNat_inj.mp this
    rw [h0] at h12
    have : ((d.writes ((rejectWrites v.trial ++ ws).take (k + 1))).mem.fwd v.trial).status = 0 := by
      show ((d.writes _).mem.flash (v.trial * 4096 + 12)).toNat = 0
      rw [h12]
      rfl
    rw [this] at hst
    cases hst

/-- Any event, when the current FWD is not itself on trial. -/
theorem event_change (hcur : (d.mem.fwd (scanView env.cfg.fwdSupportNum d.mem.fwd).current).rank ≠ fwdRankTrial)
    {e : Event} (hok : SessionOk env d e) (k : ℕ) :
    FwdChange env.cfg.fwdSupportNum e k d.mem.fwd (e.cut env d k).mem.fwd := by
  cases e with
  | session handles flags script passes resumes => exact session_change hc hd hok k
  | accept handles uninit => exact accept_change hc hd handles uninit k
  | reject handles => exact reject_change hc hd hcur handles k
  | boot rram fdt pbl faults =>
    refine .same fun s _ => ?_
    have hf := (loaderStart_rramOnly pbl faults ((Event.boot rram fdt pbl faults).before d)).cut k
    rw [Mem.fwd, Mem.fwd]
    congr 1

end

theorem cut_hasFwds {env : Env} {d : Dev} (h : HasFwds d) (e : Event) (k : ℕ) : HasFwds (e.cut env d k) := by
  cases e <;> exact h

/-! ### The upgrader's view after an event -/

theorem scanView_congr {num : ℕ} {f f' : ℕ → Fwd} (h : ∀ s < maxFwdNum, f' s = f s) :
    scanView num f' = scanView num f := by
  rw [scanView, scanView, scanTwo, scanTwo, scanTwo, scanTwo, h 0 (by decide), h 1 (by decide), h 2 (by decide)]

theorem Fwd.rank_le (m : Mem) (s : ℕ) : (m.fwd s).rank ≤ fwdRankTrial :=
  Nat.le_of_lt_succ (m.flash.word_lt (s * 4096 + 8))

/-- The rank that the scan returns stays below the trial rank if the current FWD is not on trial. -/
theorem scanView_rank_lt {num : ℕ} {m : Mem} (h : (m.fwd (scanView num m.fwd).current).rank ≠ fwdRankTrial) :
    (scanView num m.fwd).rank < fwdRankTrial := by
  rcases scanView_rank num m.fwd with hr | ⟨-, hr⟩
  · rw [hr]
    exact lt_of_le_of_ne (Fwd.rank_le m _) h
  · rw [hr]
    decide

section

variable {num : ℕ} {f f' : ℕ → Fwd} (hot : (scanView num f).trial ≠ fwdTrialUnused)
  (hr : (scanView num f).rank + 1 < fwdRankTrial)

include hot hr

/-- The trial with its new rank is a ranked FWD. -/
theorem promote_ranked : Ranked (promote (scanView num f) f (scanView num f).trial) ∧
    (promote (scanView num f) f (scanView num f).trial).rank = (scanView num f).rank + 1 := by
  have hon := (scanView_trial hot).2
  simp only [fwdRankTrial] at hr
  have hu : u32 ((scanView num f).rank + 1) = (scanView num f).rank + 1 := u32_of_lt (by omega)
  rw [promote, Function.update_self, hu]
  refine ⟨⟨hon.1, ?_⟩, rfl⟩
  simp only [fwdRankTrial]
  omega

/-- A trial with the next rank is the current FWD. -/
theorem scanView_promoted (hf : ∀ s < maxFwdNum, f' s = promote (scanView num f) f s) :
    (scanView num f').current = (scanView num f).trial ∧
      (scanView num f').rank = (scanView num f).rank + 1 := by
  obtain ⟨hm, hon⟩ := scanView_trial hot
  obtain ⟨hrk, hrank⟩ := promote_ranked hot hr
  have hft := hf _ (scanSlots_lt hm)
  rw [← hft] at hrk hrank
  obtain ⟨hc, hr'⟩ := scanView_promote hm hon
    (fun s hs hne => by rw [hf s hs, promote, Function.update_of_ne hne]) hrk (by omega)
  exact ⟨hc, hr'.trans hrank⟩

/-- A trial that has taken the place of the current FWD is the current FWD. -/
theorem scanView_replaced (hn : Replaces num (scanView num f)) (hne : (scanView num f).current ≠ (scanView num f).trial)
    (hf : ∀ s < maxFwdNum, f' s = retire (scanView num f).current (promote (scanView num f) f) s) :
    (scanView num f').current = (scanView num f).trial := by
  obtain ⟨hc, -⟩ := scanView_promoted hot hr fun s _ => Eq.refl (promote (scanView num f) f s)
  rw [← hc] at hne
  have hcur : ¬Ranked (f' (scanView num f).current) := by
    rw [hf _ (scanView_current_lt _ _), retire, Function.update_self]
    intro h
    have hst : (0 : ℕ) = fwdStatusValid := h.1.2.1
    cases hst
  refine ((scanView_remove (fun s hs hs' => ?_) hcur hne ?_).1).trans hc
  · rw [hf s hs, retire, Function.update_of_ne hs']
  · intro h2
    rcases hn with hn | hn
    · exact absurd hn h2
    · exact hn.2

end

/-! ### Never without a FWD to boot -/

/-- The upgrader's current FWD is valid, not on trial, and has the entries it was accepted with. -/
def Safe (num : ℕ) (t : Table) : Prop :=
  HasFwds t.dev ∧ FwdIsValid (t.dev.mem.fwd (scanView num t.dev.mem.fwd).current) ∧
    (t.dev.mem.fwd (scanView num t.dev.mem.fwd).current).rank ≠ fwdRankTrial ∧
    (t.dev.mem.fwd (scanView num t.dev.mem.fwd).current).imageEntries =
      t.accepted (scanView num t.dev.mem.fwd).current

/-- The condition on an accept: it does not take the current FWD out when the next rank is the trial rank. -/
def AcceptOk (num : ℕ) (d : Dev) : Event → Prop
  | .accept _ _ => (scanView num d.mem.fwd).trial ≠ fwdTrialUnused → Replaces num (scanView num d.mem.fwd) →
      (scanView num d.mem.fwd).rank + 1 ≠ fwdRankTrial
  | _ => True

/-- An event that only takes out FWDs other than the current one, or none. -/
theorem safe_of_out {num : ℕ} {t t' : Table} (h : Safe num t) (hd : HasFwds t'.dev)
    (hcur : (scanView num t'.dev.mem.fwd).current = (scanView num t.dev.mem.fwd).current)
    (hf : t'.dev.mem.fwd (scanView num t.dev.mem.fwd).current = t.dev.mem.fwd (scanView num t.dev.mem.fwd).current)
    (hacc : t'.accepted (scanView num t.dev.mem.fwd).current = t.accepted (scanView num t.dev.mem.fwd).current) :
    Safe num t' := by
  rw [Safe, hcur, hf, hacc]
  exact ⟨hd, h.2⟩

/-- A FWD that was on trial and is not any more. -/
theorem safe_of_accepted {num : ℕ} {t : Table} {d' : Dev} (hd : HasFwds d')
    (hot : (scanView num t.dev.mem.fwd).trial ≠ fwdTrialUnused)
    (hcur : (scanView num d'.mem.fwd).current = (scanView num t.dev.mem.fwd).trial)
    (hr : Ranked (d'.mem.fwd (scanView num t.dev.mem.fwd).trial)) :
    Safe num ⟨d', noteAccepted t.dev d' t.accepted⟩ := by
  have hon := (scanView_trial hot).2
  have hnote : noteAccepted t.dev d' t.accepted (scanView num t.dev.mem.fwd).trial =
      (d'.mem.fwd (scanView num t.dev.mem.fwd).trial).imageEntries := if_pos ⟨hon.2, hr.2⟩
  rw [Safe, hcur]
  exact ⟨hd, hdrOf_valid hr.1, hr.2, hnote.symm⟩

theorem safe_step {env : Env} (hc : env.cfg.fwdSupportNum = 2 ∨ env.cfg.fwdSupportNum = 3) {t : Table}
    (h : Safe env.cfg.fwdSupportNum t) {e : Event} (hok : SessionOk env t.dev e)
    (hacc : AcceptOk env.cfg.fwdSupportNum t.dev e) (k : ℕ) : Safe env.cfg.fwdSupportNum (t.after env e k) := by
  have hd' : HasFwds (t.after env e k).dev := cut_hasFwds h.1 e k
  have hlt := scanView_current_lt env.cfg.fwdSupportNum t.dev.mem.fwd
  have hrank := scanView_rank_lt h.2.2.1
  -- the entries noted for a FWD that is not on trial stay
  have hnote : (t.after env e k).accepted (scanView env.cfg.fwdSupportNum t.dev.mem.fwd).current =
      t.accepted (scanView env.cfg.fwdSupportNum t.dev.mem.fwd).current := by
    cases e with
    | accept handles uninit => exact if_neg fun hn => h.2.2.1 hn.1
    | session handles flags script passes resumes => rfl
    | reject handles => rfl
    | boot rram fdt pbl faults => rfl
  have hsame : (∀ s < maxFwdNum, (t.after env e k).dev.mem.fwd s = t.dev.mem.fwd s) →
      Safe env.cfg.fwdSupportNum (t.after env e k) := fun hf =>
    safe_of_out h hd' (congrArg TrialActive.current (scanView_congr hf)) (hf _ hlt) hnote
  rcases event_change hc h.1 h.2.2.1 hok k with hf | ⟨s, hne, h0, hf, hs⟩ | ⟨he, hot, hk, hf⟩ | ⟨he, hot, hn, hf⟩
  · exact hsame hf
  · have hview := scanView_remove hf (fun hr => hs ⟨hdrOf_valid hr.1, hr.2⟩) hne h0
    exact safe_of_out h hd' hview.1 (hf _ hlt (Ne.symm hne)) hnote
  all_goals
    obtain ⟨hm, hon⟩ := scanView_trial hot
    obtain ⟨handles, uninit, rfl⟩ := he.eq
  · by_cases hr : (scanView env.cfg.fwdSupportNum t.dev.mem.fwd).rank + 1 = fwdRankTrial
    · -- the next rank is the trial rank: nothing changes
      refine hsame fun s hs => (hf s hs).trans ?_
      rw [promote, hr, show u32 fwdRankTrial = fwdRankTrial from rfl, ← hon.2]
      exact congrFun (Function.update_eq_self _ _) s
    · have hr' : (scanView env.cfg.fwdSupportNum t.dev.mem.fwd).rank + 1 < fwdRankTrial := by omega
      refine safe_of_accepted hd' hot (scanView_promoted hot hr' hf).1 ?_
      rw [hf _ (scanSlots_lt hm)]
      exact (promote_ranked hot hr').1
  · have hne : (scanView env.cfg.fwdSupportNum t.dev.mem.fwd).current ≠
        (scanView env.cfg.fwdSupportNum t.dev.mem.fwd).trial := fun heq => h.2.2.1 (heq ▸ hon.2)
    have hr := hacc hot hn
    have hr' : (scanView env.cfg.fwdSupportNum t.dev.mem.fwd).rank + 1 < fwdRankTrial := by omega
    refine safe_of_accepted hd' hot (scanView_replaced hot hr' hn hne hf) ?_
    rw [hf _ (scanSlots_lt hm), retire, Function.update_of_ne (Ne.symm hne)]
    exact (promote_ranked hot hr').1

/-- Whatever happens, there is a FWD block that is valid, not on trial, and has the entries it was accepted or
    factory-written with. -/
theorem never_bricked (env : Env) (hc : env.cfg.fwdSupportNum = 2 ∨ env.cfg.fwdSupportNum = 3) (d₀ : Dev)
    (hd : HasFwds d₀) (hv : FwdIsValid (d₀.mem.fwd (scanView env.cfg.fwdSupportNum d₀.mem.fwd).current))
    (hr : (d₀.mem.fwd (scanView env.cfg.fwdSupportNum d₀.mem.fwd).current).rank ≠ fwdRankTrial) (t : Table)
    (h : Reach (Table.Step env fun d e _ => SessionOk env d e ∧ AcceptOk env.cfg.fwdSupportNum d e)
      (Table.factory d₀) t) :
    ∃ s < maxFwdNum, FwdIsValid (t.dev.mem.fwd s) ∧ (t.dev.mem.fwd s).rank ≠ fwdRankTrial ∧
      (t.dev.mem.fwd s).imageEntries = t.accepted s := by
  have hsafe : Safe env.cfg.fwdSupportNum t := by
    refine h.inv ⟨hd, hv, hr, rfl⟩ ?_
    rintro x y ⟨e, k, ⟨hok, hacc⟩, rfl⟩ hx
    exact safe_step hc hx hok hacc k
  exact ⟨_, scanView_current_lt _ _, hsafe.2⟩

/-- A current FWD of the given rank in slot 0 and a trial FWD in slot 1, which was booted. -/
def trialBooted (rank : ℕ) : Dev where
  mem := ⟨Memory.ofBlocks [appFwdBlock rank 3, appFwdBlock fwdRankTrial 4], fun _ => 0,
    ⟨fdtSignature, 1, fun _ => ⟨fdeImgIdApp, fdeImgRankTrial, fdeImgFormatElf, 1, 1, 0, 0, 0⟩⟩⟩
  log := []
  densityInBlocks := 1024
  rramOk := fun _ _ => true

/-- A session that is suspended and resumed, then a reject that is cut after its first write. -/
theorem never_bricked_small : ∃ s < maxFwdNum,
    let t := ((Table.factory smallFu.dev).after smallAppEnv (.session smallFu.handles 0 halfScript 12
      [(restScript, 6)]) 100).after smallAppEnv (.reject smallFu.handles) 1
    FwdIsValid (t.dev.mem.fwd s) ∧ (t.dev.mem.fwd s).rank ≠ fwdRankTrial ∧
      (t.dev.mem.fwd s).imageEntries = t.accepted s := by
  have hmem : (sessionArea smallAppEnv.cfg smallFu).mem.size ≤ (wideArea smallAppEnv.cfg smallFu).mem.size := by
    simp only [wideArea, smallArea_eq]
    decide
  have hsbl : (sessionArea smallAppEnv.cfg smallFu).sbl.size ≤ (wideArea smallAppEnv.cfg smallFu).sbl.size := by
    simp only [wideArea, smallArea_eq]
    decide
  have hok : ∀ m, (Session.run smallAppEnv m (.start smallFu 0 halfScript)).HeaderOk smallAppEnv
      (wideArea smallAppEnv.cfg smallFu) := fun m => .mono (fun hst _ _ =>
    forall_of_done (n := 12) (r := .error .sessionSuspend)
      (P := fun s => s.cxt.state = .processConfigFile → HeaderFits (sessionArea smallAppEnv.cfg smallFu) s.cxt.header)
      (by decide +kernel) (by decide +kernel) m hst) hmem hsbl
  have hres : (Tracked.start (.start smallFu 0 halfScript)).Always smallAppEnv
      (fun t => t.Contains smallAppEnv (wideArea smallAppEnv.cfg smallFu)) 12 [(restScript, 6)] :=
    ⟨fun _ hm => (smallHalf_contains hm).mono hmem hsbl, fun _ hm => (smallRest_contains hm).mono hmem hsbl⟩
  refine never_bricked smallAppEnv (.inl rfl) smallFu.dev (by decide) (by decide +kernel) (by decide +kernel) _ ?_
  refine .tail (.single ⟨.session smallFu.handles 0 halfScript 12 [(restScript, 6)], 100,
    ⟨⟨smallFu_spacious, hok, fun _ => hres⟩, trivial⟩, rfl⟩) ?_
  exact ⟨.reject smallFu.handles, 1, ⟨trivial, trivial⟩, rfl⟩

/-- Accepting a trial when the current rank is the last before the trial rank leaves no FWD to boot: the trial
    gets the trial rank again, and the current FWD is taken out. -/
theorem accept_at_last_rank_bricks :
    FwdIsValid ((trialBooted 0xFFFFFFFE).mem.fwd 0) ∧ ((trialBooted 0xFFFFFFFE).mem.fwd 0).rank ≠ fwdRankTrial ∧
    ∀ s < maxFwdNum, ¬(FwdIsValid (((Event.accept smallFu.handles 0).cut smallAppEnv (trialBooted 0xFFFFFFFE) 2).mem.fwd s) ∧
      (((Event.accept smallFu.handles 0).cut smallAppEnv (trialBooted 0xFFFFFFFE) 2).mem.fwd s).rank ≠ fwdRankTrial) := by
  decide +kernel

/-! ### One notion of the current FWD -/

/-- The upgrader's current FWD is ranked above 0, and no other FWD is valid and off trial. -/
def Sole (num : ℕ) (f : ℕ → Fwd) : Prop :=
  Ranked (f (scanView num f).current) ∧ 0 < (f (scanView num f).current).rank ∧
    ∀ s < maxFwdNum, s ≠ (scanView num f).current → ¬(FwdIsValid (f s) ∧ (f s).rank ≠ fwdRankTrial)

instance (num : ℕ) (f : ℕ → Fwd) : Decidable (Sole num f) := inferInstanceAs (Decidable (_ ∧ _ ∧ _))

/-- The same of a table. -/
def Table.Sole (num : ℕ) (t : Table) : Prop := HasFwds t.dev ∧ Upgrade.Sole num t.dev.mem.fwd

/-- The condition on an accept: it is not cut between its two writes, and it replaces the current FWD by one of
    a higher rank. -/
def AcceptWhole (num : ℕ) (d : Dev) (e : Event) (k : ℕ) : Prop :=
  e.IsAccept → k ≠ 1 ∧ ((scanView num d.mem.fwd).trial ≠ fwdTrialUnused →
    Replaces num (scanView num d.mem.fwd) ∧ (scanView num d.mem.fwd).rank + 1 ≠ fwdRankTrial)

theorem sole_step {env : Env} (hc : env.cfg.fwdSupportNum = 2 ∨ env.cfg.fwdSupportNum = 3) {d : Dev} (hd : HasFwds d)
    (h : Sole env.cfg.fwdSupportNum d.mem.fwd) {e : Event} {k : ℕ} (hok : SessionOk env d e)
    (hacc : AcceptWhole env.cfg.fwdSupportNum d e k) : Sole env.cfg.fwdSupportNum (e.cut env d k).mem.fwd := by
  have hlt := scanView_current_lt env.cfg.fwdSupportNum d.mem.fwd
  have hrank := scanView_rank_lt h.1.2
  rcases event_change hc hd h.1.2 hok k with hf | ⟨t, hne, h0, hf, ht⟩ | ⟨he, hot, hk, hf⟩ | ⟨he, hot, hn, hf⟩
  · rw [Sole, scanView_congr hf, hf _ hlt]
    exact ⟨h.1, h.2.1, fun s hs hsc => by rw [hf s hs]; exact h.2.2 s hs hsc⟩
  · have hview := scanView_remove hf (fun hr => ht ⟨hdrOf_valid hr.1, hr.2⟩) hne h0
    rw [Sole, hview.1, hf _ hlt (Ne.symm hne)]
    refine ⟨h.1, h.2.1, fun s hs hsc => ?_⟩
    by_cases hst : s = t
    · rw [hst]
      exact ht
    · rw [hf s hs hst]
      exact h.2.2 s hs hsc
  · obtain ⟨hk1, hw⟩ := hacc he
    rcases hk with hk | hk
    · exact absurd hk hk1
    · exact absurd (hw hot).1 hk
  · obtain ⟨hm, hon⟩ := scanView_trial hot
    have hne : (scanView env.cfg.fwdSupportNum d.mem.fwd).current ≠
        (scanView env.cfg.fwdSupportNum d.mem.fwd).trial := fun heq => h.1.2 (heq ▸ hon.2)
    have hr := ((hacc he).2 hot).2
    have hr' : (scanView env.cfg.fwdSupportNum d.mem.fwd).rank + 1 < fwdRankTrial := by omega
    obtain ⟨hrk, hrank'⟩ := promote_ranked hot hr'
    have htrial := hf _ (scanSlots_lt hm)
    rw [retire, Function.update_of_ne (Ne.symm hne)] at htrial
    rw [Sole, scanView_replaced hot hr' hn hne hf, htrial]
    refine ⟨hrk, by omega, fun s hs hst hval => ?_⟩
    rw [hf s hs, retire] at hval
    by_cases hsc : s = (scanView env.cfg.fwdSupportNum d.mem.fwd).current
    · rw [hsc, Function.update_self] at hval
      have hstat : (0 : ℕ) = fwdStatusValid := hval.1.2
      cases hstat
    · rw [Function.update_of_ne hsc, promote, Function.update_of_ne hst] at hval
      exact h.2.2 s hs hsc hval

/-! ### The three selectors -/

theorem readable_all {d : Dev} (h : HasFwds d) : readable d = [0, 1, 2] := by
  have hin : ∀ i < maxFwdNum, decide (d.InFlash (i * 4096) 512) = true := by
    intro i hi
    have := h.inFlash (o := 0) (n := 512) hi (by omega) (by omega)
    rw [Nat.add_zero] at this
    exact decide_eq_true this
  rw [readable, List.takeWhile_eq_self_iff]
  intro i hi
  simp only [List.mem_cons, List.not_mem_nil, or_false] at hi
  exact hin i (by simp only [maxFwdNum]; omega)

/-- The only FWD of its kind is the one recorded. -/
theorem lastOf_sole {f : ℕ → Fwd} {j c : ℕ} : ∀ {l : List ℕ}, c ∈ l → FwdIsValid (f c) → slotOfRank (f c).rank = j →
    (∀ s ∈ l, s ≠ c → ¬(FwdIsValid (f s) ∧ slotOfRank (f s).rank = j)) → lastOf f j l = some c
  | s :: l, hm, hv, hj, hall => by
    have hrest : ∀ x ∈ l, x ≠ c → ¬(FwdIsValid (f x) ∧ slotOfRank (f x).rank = j) :=
      fun x hx => hall x (List.mem_cons_of_mem _ hx)
    rw [lastOf]
    by_cases hc : c ∈ l
    · rw [lastOf_sole hc hv hj hrest, Option.some_or]
    · have hs : s = c := by
        rcases List.mem_cons.mp hm with h | h
        · exact h.symm
        · exact absurd h hc
      have hnone : lastOf f j l = none := lastOf_none.mpr fun x hx => hrest x hx fun h => hc (h ▸ hx)
      rw [hnone, Option.none_or, hs, if_pos ⟨hv, hj⟩]

/-- The only ranked FWD above 0 is the one that `fw_upgrade_get_current_index` finds. -/
theorem scanCurrent_sole {d : Dev} (hd : HasFwds d) {c : ℕ} : ∀ {l : List ℕ}, (∀ i ∈ l, i < maxFwdNum) → c ∈ l →
    Ranked (d.mem.fwd c) → 0 < (d.mem.fwd c).rank → (∀ s ∈ l, s ≠ c → ¬Ranked (d.mem.fwd s)) → scanCurrent d l = some c
  | s :: l, hl, hm, hr, hpos, hall => by
    rw [scanCurrent, readFwdHdr_eq hd (hl s List.mem_cons_self)]
    simp only
    by_cases hs : s = c
    · subst hs
      exact if_pos ⟨hr.1, hr.2, hpos⟩
    · rw [if_neg fun h => hall s List.mem_cons_self hs ⟨h.1, h.2.1⟩]
      refine scanCurrent_sole hd (fun i hi => hl i (List.mem_cons_of_mem _ hi)) ?_ hr hpos
        fun x hx => hall x (List.mem_cons_of_mem _ hx)
      rcases List.mem_cons.mp hm with h | h
      · exact absurd h.symm hs
      · exact h

theorem scanView_current_lt_num {num : ℕ} (hc : num = 2 ∨ num = 3) (f : ℕ → Fwd) : (scanView num f).current < num := by
  rcases hc with rfl | rfl
  · rw [scanView, if_pos rfl, (scanTwo_eq f 0 1 0).1]
    split_ifs <;> decide
  · exact scanView_current_lt 3 f

/-- Where one FWD is valid and off trial, the boot loader and the two scans of the upgrader agree on it. -/
theorem Sole.selectors {cfg : Config} (hc : cfg.fwdSupportNum = 2 ∨ cfg.fwdSupportNum = 3) {d : Dev} (hd : HasFwds d)
    (h : Sole cfg.fwdSupportNum d.mem.fwd) :
    recorded d indexCurrent = some (scanView cfg.fwdSupportNum d.mem.fwd).current ∧
    (fwUpgradeGetTrialActiveFwdIndex cfg d).1.current = (scanView cfg.fwdSupportNum d.mem.fwd).current ∧
    fwUpgradeGetCurrentIndex cfg d = some (scanView cfg.fwdSupportNum d.mem.fwd).current := by
  obtain ⟨hr, hpos, hall⟩ := h
  have hslot : ∀ f : Fwd, f.rank ≠ fwdRankTrial → 0 < f.rank → slotOfRank f.rank = indexCurrent := by
    intro f hne h0
    rw [slotOfRank, if_neg hne, if_neg (by omega)]
  have hnum : ∀ i ∈ List.range cfg.fwdSupportNum, i < maxFwdNum := by
    intro i hi
    have := List.mem_range.mp hi
    simp only [maxFwdNum]
    omega
  refine ⟨?_, ?_, ?_⟩
  · rw [recorded, readable_all hd]
    refine lastOf_sole ?_ (hdrOf_valid hr.1) (hslot _ hr.2 hpos) ?_
    · have := scanView_current_lt cfg.fwdSupportNum d.mem.fwd
      simp only [maxFwdNum] at this
      simp only [List.mem_cons, List.not_mem_nil, or_false]
      omega
    · intro s hs hne hv
      have hlt : s < maxFwdNum := readable_lt (d := d) (by rw [readable_all hd]; exact hs)
      refine hall s hlt hne ⟨hv.1, fun ht => ?_⟩
      rw [(slotOfRank_trial _).mpr ht] at hv
      exact absurd hv.2 (by decide)
  · rw [getTrialActive_eq hd hc]
  · refine scanCurrent_sole hd hnum (List.mem_range.mpr (scanView_current_lt_num hc _)) hr hpos ?_
    intro s hs hne hrk
    exact hall s (hnum s hs) hne ⟨hdrOf_valid hrk.1, hrk.2⟩

/-- In every table reached the boot loader's current FWD, the one of highest rank and the first one of rank above
    0 are the same. -/
theorem selectors_agree (env : Env) (hc : env.cfg.fwdSupportNum = 2 ∨ env.cfg.fwdSupportNum = 3) (d₀ : Dev)
    (hd : HasFwds d₀) (h₀ : Sole env.cfg.fwdSupportNum d₀.mem.fwd) (t : Table)
    (h : Reach (Table.Step env fun d e k => SessionOk env d e ∧ AcceptWhole env.cfg.fwdSupportNum d e k)
      (Table.factory d₀) t) :
    ∃ c, (bootSblGetFwdInfo t.dev SblInfo.zero).FwdTableIsValid indexCurrent ∧
      (bootSblGetFwdInfo t.dev SblInfo.zero).bootFwd indexCurrent = c ∧
      (fwUpgradeGetTrialActiveFwdIndex env.cfg t.dev).1.current = c ∧
      fwUpgradeGetCurrentIndex env.cfg t.dev = some c := by
  have hinv : t.Sole env.cfg.fwdSupportNum := by
    refine h.inv ⟨hd, h₀⟩ ?_
    rintro x y ⟨e, k, ⟨hok, hacc⟩, rfl⟩ ⟨hdx, hx⟩
    exact ⟨cut_hasFwds hdx e k, sole_step hc hdx hx hok hacc⟩
  obtain ⟨hrec, hview, hfirst⟩ := hinv.2.selectors hc hinv.1
  exact ⟨_, (getFwdInfo_valid _ _).mpr (by rw [hrec]; simp), (getFwdInfo_table hrec).2, hview, hfirst⟩

/-- The trial of a booted device is accepted. -/
theorem selectors_agree_accepted : ∃ c,
    let d := ((Table.factory (trialBooted 1)).after smallAppEnv (.accept smallFu.handles 0) 2).dev
    (bootSblGetFwdInfo d SblInfo.zero).FwdTableIsValid indexCurrent ∧
      (bootSblGetFwdInfo d SblInfo.zero).bootFwd indexCurrent = c ∧
      (fwUpgradeGetTrialActiveFwdIndex smallAppEnv.cfg d).1.current = c ∧
      fwUpgradeGetCurrentIndex smallAppEnv.cfg d = some c := by
  refine selectors_agree smallAppEnv (.inl rfl) (trialBooted 1) (by decide) (by decide +kernel) _ (.single ?_)
  refine ⟨.accept smallFu.handles 0, 2, ⟨trivial, fun _ => ⟨by decide, fun _ => ?_⟩⟩, rfl⟩
  decide +kernel

/-- From one valid FWD in slot 0: a session that ends well, the boot of its trial in slot 1, and an accept that is
    cut between its two writes. -/
def cutAccept : Table :=
  (((Table.factory smallFu.dev).after smallAppEnv (.session smallFu.handles 0 smallScript 13 []) 100).after smallAppEnv
    (.boot (fun _ => 0) (trialBooted 1).mem.fdt currentSbl []) 0).after smallAppEnv (.accept smallFu.handles 0) 1

/-- Then slot 0 has rank 1 and slot 1 has rank 2: the first FWD of rank above 0 is not the one of highest rank. -/
theorem cut_accept_disagrees :
    (∀ s < maxFwdNum, FwdIsValid (smallFu.dev.mem.fwd s) ↔ s = 0) ∧
    (bootSblGetFwdInfo cutAccept.dev SblInfo.zero).bootFwd indexCurrent = 1 ∧
    (fwUpgradeGetTrialActiveFwdIndex smallAppEnv.cfg cutAccept.dev).1.current = 1 ∧
    fwUpgradeGetCurrentIndex smallAppEnv.cfg cutAccept.dev = some 0 := by
  decide +kernel

end Qcc730.Upgrade
