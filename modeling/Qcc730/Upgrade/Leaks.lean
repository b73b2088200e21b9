import Qcc730.Upgrade.Handles
import Qcc730.Upgrade.Pairing

/-! Handles over whole sequences of calls.

    Every way out of a session gives its handle back. Two functions never give theirs back: the finalize of a session
    that brought an SBL, and the reject of a trial that has one. A third handle is lost when a session is resumed
    between two images and the next one is already in the trial FWD: it is opened, and opened over. -/

namespace Qcc730.Upgrade
open Lib Flash

/-! ### Calls -/

/-- What happens to the upgrade module: a call of `fw_upgrade`, `fw_upgrade_session_resume` or, of a suspended
    session, `fw_upgrade_session_cancel`; a pass of the worker in such a call; a call of `fw_upgrade_accept_trial_fwd`
    or `fw_upgrade_reject_trial_fwd`. A running session is cancelled and suspended by its script. -/
inductive Call where
  | upgrade (flags : ℕ) (script : Script)
  | pass
  | resume (script : Script)
  | cancel
  | accept (uninit : ℕ)
  | reject

namespace Session

/-- No call of the session is running. -/
def Returns (s : Session) : Prop := ∃ r, s.phase = .done r

/-- No session: it has not been started, or it has ended. -/
def Over (s : Session) : Prop := s.Returns ∧ s.cxt.sessionStatus ≠ .suspend

instance (s : Session) : Decidable s.Returns :=
  match h : s.phase with
  | .done r => .isTrue ⟨r, h⟩
  | .process => .isFalse fun ⟨_, hr⟩ => Phase.noConfusion (h.symm.trans hr)
  | .finalize _ => .isFalse fun ⟨_, hr⟩ => Phase.noConfusion (h.symm.trans hr)

instance (s : Session) : Decidable s.Over := inferInstanceAs (Decidable (_ ∧ _))

/-- The module before the first session. -/
def none (fu : Fu) : Session :=
  { Session.start fu 0 ⟨[], [], []⟩ with phase := .done (.ok ()), cxt := { Cxt.init 0 with sessionStatus := .notStart } }

def call (env : Env) (s : Session) : Call → Session
  | .upgrade flags script => if s.Over then .start s.fu flags script else s
  | .pass => s.step env
  | .resume script => s.resume script
  | .cancel => if s.Returns ∧ s.cxt.sessionStatus = .suspend then s.fin else s
  | .accept uninit => { s with fu := (fwUpgradeAcceptTrialFwd env.cfg uninit s.fu).2 }
  | .reject => { s with fu := (fwUpgradeRejectTrialFwd env.cfg s.fu).2 }

/-- The passes that lose no handle: a session that succeeds has brought no SBL; a session is resumed with an image open,
    or with one that the trial FWD does not have yet. -/
def CarefulPass (env : Env) (s : Session) : Phase → Prop
  | .process => s.poll.cxt.sessionStatus = .running → s.cxt.state = .resumeService → s.Reopens env
  | .finalize ret => s.poll.finalRet ret = .ok () → ¬HasEntry (s.fu.dev.mem.fwd s.cxt.trialFwdIdx) sblImgId
  | .done _ => True

instance (env : Env) (s : Session) : ∀ p, Decidable (s.CarefulPass env p)
  | .process => inferInstanceAs (Decidable (_ → _ → _))
  | .finalize _ => inferInstanceAs (Decidable (_ → _))
  | .done _ => inferInstanceAs (Decidable True)

/-- The calls that lose no handle: nor has a trial that is rejected an SBL. -/
def Careful (env : Env) (s : Session) : Call → Prop
  | .pass => s.CarefulPass env s.phase
  | .reject =>
    (fwUpgradeGetTrialActiveFwdIndex env.cfg s.fu.dev).2 = true →
      ¬HasEntry (s.fu.dev.mem.fwd (fwUpgradeGetTrialActiveFwdIndex env.cfg s.fu.dev).1.trial) sblImgId
  | .upgrade _ _ => True
  | .resume _ => True
  | .cancel => True
  | .accept _ => True

instance (env : Env) (s : Session) : ∀ a, Decidable (s.Careful env a)
  | .pass => inferInstanceAs (Decidable (s.CarefulPass env s.phase))
  | .reject => inferInstanceAs (Decidable (_ → ¬_))
  | .upgrade _ _ => inferInstanceAs (Decidable True)
  | .resume _ => inferInstanceAs (Decidable True)
  | .cancel => inferInstanceAs (Decidable True)
  | .accept _ => inferInstanceAs (Decidable True)

/-- After the call every handle is free if no call is running any more, and there is always one to take. -/
def GivesBack (env : Env) (s : Session) (a : Call) : Prop :=
  ((s.call env a).Returns → ∀ h < fwUpgradeMaxHandles, ((s.call env a).fu.handles h).refCount = 0) ∧
    ∀ f id, (fwUpgradeFindPartition f id (s.call env a).fu).1 ≠ .error .getPartitionNull

/-- What a session holds in each phase. -/
def Handled (s : Session) : Prop :=
  match s.phase with
  | .process => s.Tidy
  | .finalize _ => s.HoldsOwn
  | .done _ => s.fu.AllFree

variable {s : Session}

theorem Tidy.poll (h : s.Tidy) : s.poll.Tidy := by
  obtain ⟨sc, st, heq⟩ := s.poll_eq
  rw [heq]
  exact h.imp (fun h => ⟨h.1, h.2⟩) fun h => ⟨h.holding, h.isFirst, h.length, h.state⟩

theorem HoldsOwn.poll (h : s.HoldsOwn) : s.poll.HoldsOwn := by
  obtain ⟨sc, st, heq⟩ := s.poll_eq
  rw [heq]
  exact h

theorem HoldsOwn.leave (h : s.HoldsOwn) (ret : Except FuStatus Unit) : (s.leave ret).fu.AllFree := by
  rw [Session.leave]
  split
  · exact h.freePartitionHdl
  · exact h.freePartitionHdl

theorem Handled.of_done {r : Except FuStatus Unit} (hp : s.phase = .done r) (h : s.fu.AllFree) : s.Handled := by
  rw [Handled, hp]
  exact h

theorem leave_handled (h : s.HoldsOwn) (ret : Except FuStatus Unit) : (s.leave ret).Handled := by
  obtain ⟨r, hr⟩ := leave_done s ret
  exact .of_done hr (h.leave ret)

end Session

/-- Writing a field of the head of a FWD leaves its entries. -/
theorem setFwdInfo_entries (f : ℕ) (info : FwdInfo) (v : ℕ) (s : Fu) :
    ((fwUpgradeSetFwdInfo f info v s).2.dev.mem.fwd f).imageEntries = (s.dev.mem.fwd f).imageEntries := by
  rw [fwUpgradeSetFwdInfo]
  split
  · rfl
  rw [drvFlashWrite]
  by_cases hin : s.dev.InFlash (f * 4096 + info.offset) (info.encode v).length
  swap
  · rw [if_neg hin]
  rw [if_pos hin]
  have hlen : info.offset + (info.encode v).length ≤ 32 := by
    rw [FwdInfo.length_encode]
    cases info <;> decide
  refine List.map_congr_left fun k hk => ImageEntry.decode_congr fun i hi => ?_
  show (s.dev.writes _).mem.flash _ = _
  rw [Dev.writes_mem]
  refine Mem.replay_flash_out fun w hw hx => ?_
  have hr := (pages_sub _ _ _ w hw).1 _ hx
  simp only [Range.mem_mk] at hr
  omega

/-- Without an SBL entry nothing is opened when the trial FWD is made valid. -/
theorem validate_holdsOwn {s : Session} (h : s.HoldsOwn)
    (hsbl : ¬HasEntry (s.fu.dev.mem.fwd s.cxt.trialFwdIdx) sblImgId) : s.validate.HoldsOwn := by
  rw [Session.validate]
  have hret := setFwdInfo_returned s.cxt.trialFwdIdx .status fwdStatusValid s.fu _ h
  have hent := setFwdInfo_entries s.cxt.trialFwdIdx .status fwdStatusValid s.fu
  generalize (fwUpgradeSetFwdInfo s.cxt.trialFwdIdx .status fwdStatusValid s.fu).2 = fu₁ at hret hent
  rcases findPartition_cases s.cxt.trialFwdIdx sblImgId fu₁ with ⟨e, heq⟩ | ⟨k, i, en, -, -, -, hfe, heq⟩
  · rw [heq]
    exact hret
  · obtain ⟨e, he, hid⟩ := hasEntry_of_findEntry hfe
    exact absurd ⟨e, hent ▸ he, hid⟩ hsbl

/-- The end of a session. -/
theorem finalize_handled {s : Session} {ret : Except FuStatus Unit} (h : s.HoldsOwn)
    (hsbl : s.finalRet ret = .ok () → ¬HasEntry (s.fu.dev.mem.fwd s.cxt.trialFwdIdx) sblImgId) :
    (s.finalize ret).Handled := by
  rw [Session.finalize]
  rcases hr : s.finalRet ret with e | u
  · exact Session.leave_handled h.poll _
  have hv := validate_holdsOwn h (hsbl hr)
  simp only
  split
  · exact .of_done rfl hv.freePartitionHdl
  · exact Session.leave_handled hv.poll _

/-- One pass of the worker. -/
theorem step_handled (env : Env) {s : Session} (h : s.Handled) (hc : s.Careful env .pass) : (s.step env).Handled := by
  obtain ⟨sc, st, hpoll⟩ := s.poll_eq
  rw [Session.Handled] at h
  rw [Session.Careful] at hc
  rw [Session.step]
  cases hph : s.phase with
  | process =>
    rw [hph] at h hc
    rw [Session.CarefulPass] at hc
    simp only at h ⊢
    have hfree : s.poll.Holding := h.poll.holding
    by_cases hrun : s.poll.cxt.sessionStatus = .running
    swap
    · rw [if_neg hrun]
      exact hfree.2
    rw [if_pos hrun]
    have hsw := sessionSwitch_tidy env h.poll fun hst => by
      have hre := hc hrun (by rw [hpoll] at hst; exact hst)
      rw [hpoll]
      exact hre
    rcases hr : sessionSwitch env s.poll with ⟨e | b, s'⟩ <;> rw [hr] at hsw
    · exact hsw.2
    have ht : s'.Tidy := hsw
    cases b with
    | false => exact ht.holding.2
    | true =>
      show s'.Handled
      rw [Session.Handled, ht.holding.1]
      exact ht
  | finalize ret =>
    rw [hph] at h hc
    rw [Session.CarefulPass] at hc
    simp only at h ⊢
    refine finalize_handled (Session.HoldsOwn.poll h) ?_
    rw [hpoll] at hc ⊢
    exact hc
  | done r =>
    rw [hph] at h
    exact .of_done hph h

theorem resume_handled {s : Session} (h : s.Handled) (script : Script) : (s.resume script).Handled := by
  rw [Session.resume]
  cases hph : s.phase with
  | process => exact h
  | finalize ret => exact h
  | done r =>
    simp only
    split
    swap
    · exact h
    rw [Session.Handled, hph] at h
    refine .inl ⟨⟨rfl, h⟩, ?_⟩
    show (if State.resumeService.ctorIdx ≤ s.cxt.state.ctorIdx then State.resumeService else s.cxt.state) = _ → _
    intro hst
    split at hst
    · cases hst
    · rename_i hlt
      rw [hst] at hlt
      exact absurd (by decide) hlt

theorem accept_returned (cfg : Config) (uninit : ℕ) : (fwUpgradeAcceptTrialFwd cfg uninit).Moves Fu.Returned := by
  refine .bind .trans (.gets .refl _) fun r => .ite ?_ (.fail .refl _)
  refine .bind .trans (.gets .refl _) fun _ => .ite ?_ (.fail .refl _)
  exact .bind .trans (setFwdInfo_returned _ _ _) fun _ => .ite (setFwdInfo_returned _ _ _) (.pure .refl _)

/-- A trial without an SBL is rejected without a handle. -/
theorem reject_returned (cfg : Config) {s : Fu} (hsbl : (fwUpgradeGetTrialActiveFwdIndex cfg s.dev).2 = true →
    ¬HasEntry (s.dev.mem.fwd (fwUpgradeGetTrialActiveFwdIndex cfg s.dev).1.trial) sblImgId) :
    s.Returned (fwUpgradeRejectTrialFwd cfg s).2 := by
  rw [fwUpgradeRejectTrialFwd, Cmd.bind_ok (Cmd.gets_apply _ _)]
  generalize fwUpgradeGetTrialActiveFwdIndex cfg s.dev = v at hsbl
  obtain ⟨v, ok⟩ := v
  simp only at hsbl ⊢
  by_cases hok : ok = true
  swap
  · rw [if_neg hok]
    exact .refl s
  rw [if_pos hok]
  have h₁ := setFwdInfo_returned v.trial .status 0 s
  have he₁ := setFwdInfo_entries v.trial .status 0 s
  rcases hr₁ : fwUpgradeSetFwdInfo v.trial .status 0 s with ⟨e | u, s₁⟩ <;> rw [hr₁] at h₁ he₁
  · rw [Cmd.bind_error hr₁]
    exact h₁
  rw [Cmd.bind_ok hr₁]
  have h₂ := setFwdInfo_returned v.trial .rank 1 s₁
  have he₂ := setFwdInfo_entries v.trial .rank 1 s₁
  rcases hr₂ : fwUpgradeSetFwdInfo v.trial .rank 1 s₁ with ⟨e | u, s₂⟩ <;> rw [hr₂] at h₂ he₂
  · rw [Cmd.bind_error hr₂]
    exact h₁.trans h₂
  rw [Cmd.bind_ok hr₂, Cmd.bind_apply, Cmd.attempt]
  rcases findPartition_cases v.trial sblImgId s₂ with ⟨e, heq⟩ | ⟨k, i, en, -, -, -, hfe, heq⟩
  · rw [heq]
    refine h₁.trans (h₂.trans ?_)
    cases e <;> exact .refl s₂
  · obtain ⟨e, he, hid⟩ := hasEntry_of_findEntry hfe
    exact absurd ⟨e, (he₂.trans he₁) ▸ he, hid⟩ (hsbl hok)

/-- Giving back at the level of the device gives back in a session. -/
theorem Session.Handled.returned {s : Session} (h : s.Handled) {fu' : Fu} (hr : s.fu.Returned fu') :
    ({ s with fu := fu' } : Session).Handled := by
  rw [Session.Handled] at h ⊢
  cases hph : s.phase with
  | process =>
    rw [hph] at h
    rcases h with h | h
    · exact .inl ⟨⟨rfl, hr _ h.1.2⟩, h.2⟩
    · exact .inr ⟨⟨rfl, hr _ h.holding.2⟩, h.isFirst, h.length, h.state⟩
  | finalize ret =>
    rw [hph] at h
    exact hr _ h
  | done r =>
    rw [hph] at h
    exact hr _ h

theorem start_handled {fu : Fu} (h : fu.AllFree) (flags : ℕ) (script : Script) :
    (Session.start fu flags script).Handled := .inl ⟨⟨rfl, h⟩, State.noConfusion⟩

theorem call_handled (env : Env) {s : Session} (h : s.Handled) {a : Call} (hc : s.Careful env a) :
    (s.call env a).Handled := by
  have hdone : ∀ {r}, s.phase = .done r → s.fu.AllFree := by
    intro r hr
    rw [Session.Handled, hr] at h
    exact h
  cases a with
  | upgrade flags script =>
    rw [Session.call]
    split
    · rename_i ho
      obtain ⟨r, hr⟩ := ho.1
      exact start_handled (hdone hr) flags script
    · exact h
  | pass => exact step_handled env h hc
  | resume script => exact resume_handled h script
  | cancel =>
    rw [Session.call]
    split
    · rename_i ho
      obtain ⟨r, hr⟩ := ho.1
      exact .of_done (s.freePartitionHdl_phase.trans hr) (Session.HoldsOwn.freePartitionHdl ((hdone hr).holds _))
    · exact h
  | accept uninit => exact h.returned (accept_returned env.cfg uninit s.fu)
  | reject => exact h.returned (reject_returned env.cfg hc)

theorem Session.Handled.holdsOwn {s : Session} (h : s.Handled) : s.HoldsOwn := by
  rw [Session.Handled] at h
  cases hph : s.phase with
  | process =>
    rw [hph] at h
    exact h.holding.2
  | finalize ret =>
    rw [hph] at h
    exact h
  | done r =>
    rw [hph] at h
    exact h.holds _

/-- Where few handles are taken, a partition is not refused for want of one. -/
theorem findPartition_not_null {s : Fu} {hs : List ℕ} (h : s.Holds hs) (hlen : hs.length < fwUpgradeMaxHandles) (f id : ℕ) :
    (fwUpgradeFindPartition f id s).1 ≠ .error .getPartitionNull := by
  obtain ⟨k, hk⟩ := Option.ne_none_iff_exists'.mp (h.clientEntry? hlen)
  rw [fwUpgradeFindPartition, hk]
  split
  · simp
  simp only
  split
  · simp
  split
  · simp
  · simp

theorem handled_givesBack (env : Env) {s : Session} {a : Call} (h : (s.call env a).Handled) : s.GivesBack env a := by
  refine ⟨fun ⟨r, hr⟩ k hk => ?_, findPartition_not_null h.holdsOwn ?_⟩
  · rw [Session.Handled, hr] at h
    exact h k hk List.not_mem_nil
  · cases (s.call env a).cxt.partitionHdl <;> simp

/-- Starting with every handle free, calls that are all careful leave every handle free each time no call is running,
    and a partition is never refused for want of a handle. -/
theorem handles_given_back (env : Env) (s : Session) (hs : s.Returns) (hfree : s.fu.AllFree) (calls : List Call)
    (hc : Along (Session.call env) (Session.Careful env) s calls) :
    Along (Session.call env) (Session.GivesBack env) s calls := by
  obtain ⟨r, hr⟩ := hs
  exact Along.of_inv (I := Session.Handled) (fun s a h hc => call_handled env h hc)
    (fun s a h hc => handled_givesBack env (call_handled env h hc)) (.of_done hr hfree) hc

/-- An upgrade that succeeds, on the small device. -/
theorem handles_given_back_small : (Session.none smallFu).Returns ∧ smallFu.AllFree ∧
    Along (Session.call smallAppEnv) (Session.GivesBack smallAppEnv) (.none smallFu)
      (.upgrade 0 smallScript :: List.replicate 13 .pass) :=
  ⟨⟨_, rfl⟩, by decide, handles_given_back smallAppEnv (.none smallFu) ⟨_, rfl⟩ (by decide) _ (by decide +kernel)⟩

/-- An upgrade that brings an SBL succeeds and leaves the handle that found it. -/
theorem sbl_upgrade_loses_handle : (Session.none smallFu).Returns ∧ smallFu.AllFree ∧
    ¬Along (Session.call appSblEnv) (Session.GivesBack appSblEnv) (.none smallFu)
      (.upgrade 0 appSblScript :: List.replicate 13 .pass) := by
  refine ⟨⟨_, rfl⟩, by decide, fun h => ?_⟩
  rw [show (Call.upgrade 0 appSblScript :: List.replicate 13 Call.pass) =
    (Call.upgrade 0 appSblScript :: List.replicate 12 Call.pass) ++ [.pass] from rfl, Along.append] at h
  have hend : ((Session.call appSblEnv ((Call.upgrade 0 appSblScript :: List.replicate 12 Call.pass).foldl
      (Session.call appSblEnv) (.none smallFu)) .pass).Returns ∧
      ((Session.call appSblEnv ((Call.upgrade 0 appSblScript :: List.replicate 12 Call.pass).foldl
        (Session.call appSblEnv) (.none smallFu)) .pass).fu.handles 0).refCount ≠ 0) := by decide +kernel
  exact hend.2 (h.2.1.1 hend.1 0 (by decide))

end Qcc730.Upgrade
