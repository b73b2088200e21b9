import Qcc730.Upgrade.Containment
import Qcc730.Sbl.Table

/-! A power loss during an upgrade.

    A session first erases the trial FWD and from then on programs it without its rank and status, so at
    every crash point that block holds no valid FWD and the other two are as they were. The boot loader
    then selects what it selected before. The status is programmed last, by
    `fw_upgrade_session_finalize`. -/

namespace Qcc730.Upgrade
open Lib Flash Sbl

/-- No partition that a session writes to reaches into the three FWD blocks. -/
def Area.OffFwds (A : Area) : Prop := ∀ q ∈ A.data, q.size = 0 ∨ fwUpgradeMaxFwd * 4096 ≤ q.start

instance (A : Area) : Decidable A.OffFwds := inferInstanceAs (Decidable (∀ q ∈ _, _ ∨ _))

theorem Area.OffFwds.not_mem {A : Area} (h : A.OffFwds) {q : Range} (hq : q ∈ A.data) {x : ℕ}
    (hx : x < fwUpgradeMaxFwd * 4096) : x ∉ q := by
  intro hm
  rw [Range.mem_def] at hm
  rcases h q hq with h | h <;> omega

section

variable {A : Area} {d₀ d : Dev}

/-- The other FWDs are as they were before the session. -/
theorem Grown.other_fwd (h : Grown A d₀ d) (ho : A.OffFwds) {s : ℕ} (hs : s < maxFwdNum) (hne : s ≠ A.trial) :
    d.mem.fwd s = d₀.mem.fwd s := by
  apply Mem.fwd_congr
  intro x hx
  rw [Range.mem_mk] at hx
  apply h.flash_out
  · rw [Area.trialBlock, Range.mem_mk]
    omega
  · intro q hq
    simp only [maxFwdNum] at hs
    exact ho.not_mem hq (by simp only [fwUpgradeMaxFwd]; omega)

/-- Rank and status of the trial FWD are as erased. -/
theorem Grown.trial_erased (h : Grown A d₀ d) (ho : A.OffFwds) {i : ℕ} (hi : 8 ≤ i ∧ i ≤ 12) :
    d.mem.flash (A.trial * 4096 + i) = 0xFF := by
  obtain ⟨hlt, rest, rfl, hr⟩ := h
  simp only [fwUpgradeMaxFwd] at hlt
  rw [Dev.writes_mem, replay_cons, Mem.replay_flash_out]
  · exact Memory.erase_in (by omega) (by omega)
  · intro w hw hx
    obtain ⟨q, hq, hsub⟩ := (hr w hw).flash
    have hm := hsub _ hx
    rcases List.mem_append.mp hq with hq | hq
    · exact ho.not_mem hq (by simp only [fwUpgradeMaxFwd]; omega) hm
    · simp only [Area.descr, List.mem_cons, List.not_mem_nil, or_false] at hq
      generalize A.trial * 4096 = a at *
      rcases hq with rfl | rfl | rfl <;> rw [Range.mem_mk] at hm <;> omega

theorem Grown.trial_status (h : Grown A d₀ d) (ho : A.OffFwds) : (d.mem.fwd A.trial).status = 255 := by
  show (d.mem.flash (A.trial * 4096 + 12)).toNat = 255
  rw [h.trial_erased ho (by omega)]
  rfl

theorem Grown.trial_rank (h : Grown A d₀ d) (ho : A.OffFwds) : (d.mem.fwd A.trial).rank = fwdRankTrial := by
  show d.mem.flash.word (A.trial * 4096 + 8) = fwdRankTrial
  rw [Memory.word, h.trial_erased ho (by omega)]
  simp only [Nat.add_assoc]
  rw [h.trial_erased ho (by omega), h.trial_erased ho (by omega), h.trial_erased ho (by omega)]
  rfl

/-- What is on the device after a power loss. -/
theorem Grown.cut (h : Grown A d₀ d) (k : ℕ) :
    d₀.writes ((d.log.drop d₀.log.length).take k) = d₀ ∨
      Grown A d₀ (d₀.writes ((d.log.drop d₀.log.length).take k)) := by
  obtain ⟨hlt, rest, rfl, hr⟩ := h
  rw [Dev.writes_log, List.drop_left]
  rcases k with _ | k
  · exact .inl d₀.writes_nil
  · exact .inr ⟨hlt, rest.take k, rfl, fun w hw => hr w (List.mem_of_mem_take hw)⟩

/-- The boot loader selects what it selected before the session. -/
theorem Grown.bootChoice (h : Grown A d₀ d) (ho : A.OffFwds) {sblRank : ℕ} (hs : Settled sblRank d₀)
    (ht : ∀ j es, bootChoice sblRank d₀ ≠ some (j, A.trial, es)) (ha : TrialAlone d₀ A.trial) :
    bootChoice sblRank d = bootChoice sblRank d₀ := by
  refine bootChoice_remove hs h.density (fun s hs' hne => h.other_fwd ho hs' hne) ?_ ht ha
  intro hv
  have hst := hv.2
  rw [h.trial_status ho] at hst
  cases hst

end

/-! ### Runs -/

/-- The area of a session with as much trial memory and as large an SBL slot as addresses allow. -/
def wideArea (cfg : Config) (fu₀ : Fu) : Area :=
  { sessionArea cfg fu₀ with
    mem := ⟨(sessionArea cfg fu₀).mem.start, 2147483647 - (sessionArea cfg fu₀).mem.start⟩
    sbl := ⟨(sessionArea cfg fu₀).sbl.start, 2 ^ 32 - (sessionArea cfg fu₀).sbl.start⟩ }

/-- The places of a session lie behind the FWD blocks and below 2 GB. -/
structure Spacious (cfg : Config) (fu₀ : Fu) : Prop where
  mem : fwUpgradeMaxFwd * 4096 ≤ (sessionArea cfg fu₀).mem.start ∧ (sessionArea cfg fu₀).mem.start < 2 ^ 31
  parts : ∀ q ∈ [(sessionArea cfg fu₀).fs2, (sessionArea cfg fu₀).ramdump],
    (q.size = 0 ∨ fwUpgradeMaxFwd * 4096 ≤ q.start) ∧ q.start + q.size < 2 ^ 31
  sbl : (sessionArea cfg fu₀).sbl.start ≤ 2 ^ 32

theorem wideArea_samePlaces (cfg : Config) (fu₀ : Fu) : (wideArea cfg fu₀).SamePlaces (sessionArea cfg fu₀) :=
  ⟨rfl, rfl, rfl, rfl, rfl, rfl⟩

theorem Spacious.offFwds {cfg : Config} {fu₀ : Fu} (h : Spacious cfg fu₀) : (wideArea cfg fu₀).OffFwds := by
  intro q hq
  rcases List.mem_cons.mp hq with rfl | hq
  · exact .inr h.mem.1
  · exact (h.parts q hq).1

theorem Spacious.sane {cfg : Config} {fu₀ : Fu} (h : Spacious cfg fu₀) : (wideArea cfg fu₀).Sane := by
  refine ⟨?_, ?_, ?_⟩
  · intro q hq
    rcases List.mem_cons.mp hq with rfl | hq
    · have := h.mem.2
      simp only [wideArea]
      omega
    · exact (h.parts q hq).2
  · have := h.sbl
    simp only [wideArea]
    omega
  · intro hlt q hq x hx hxa
    refine h.offFwds.not_mem hq ?_ hx
    rw [Area.activeBlock, Range.mem_mk] at hxa
    simp only [fwUpgradeMaxFwd] at hlt ⊢
    omega

/-- No suspend request is pending when `fw_upgrade_session_finalize` looks at a finished session. -/
def Session.SuspendOk (s : Session) : Prop :=
  ∀ ret, s.phase = .finalize ret → s.cxt.state = .finish → s.poll.cxt.sessionStatus ≠ .suspend

/-- Every image that was downloaded passed `fw_upgrade_verify_image_hash`. -/
def Session.DownloadsVerified (env : Env) (s : Session) : Prop :=
  ∀ i < s.cxt.totalImages, ∀ h, s.cxt.imageHdr[i]? = some h → s.cxt.downloadFlag i = true → h.imageLength ≠ 0 →
    ∃ b, (i, b) ∈ s.verified ∧ h.hash = env.sha256 (b ++ List.replicate (s.cxt.hashPad h) 0xFF)

theorem Inv.finish {env : Env} {A : Area} {fu₀ : Fu} {s : Session} (h : Inv env A fu₀ s)
    (hst : s.cxt.state = .finish) : s.DownloadsVerified env := by
  cases h with
  | placed hs hL hg htr hv ht => exact fun i hi => hv i (by omega)
  | start hs => simp [hst] at hs
  | chosen hs => simp [hst] at hs
  | early hs => simp [hst] at hs
  | between hs => simp [hst] at hs
  | image hs => simp [hst] at hs
  | copies hs => simp [hst] at hs

/-- Before `fw_upgrade_session_finalize` the device is as the log of the session leaves it. -/
theorem RunInv.logged {env : Env} {A : Area} {fu₀ : Fu} {s : Session} (h : RunInv env A fu₀ s)
    (hn : ∀ r, s.phase ≠ .done r) : Logged env A fu₀ s := by
  rw [RunInv] at h
  split at h
  · exact h.logged
  · exact h.logged
  · exact h
  · exact absurd ‹_› (hn _)

/-- `fw_upgrade_session_finalize` writes only after a finished session. -/
theorem finalize_log (s : Session) (ret : Except FuStatus Unit) :
    (s.finalize ret).fu.dev.log = s.fu.dev.log ∨
      (s.cxt.sessionStatus ≠ .cancel ∧ s.cxt.state = .finish ∧ ret = .ok ()) := by
  rw [Session.finalize]
  rcases hr : s.finalRet ret with e | u
  · left
    rw [Session.leave_dev, Session.poll_fu]
  · exact .inr (finalRet_ok hr)

/-- A power loss at any point before the trial FWD is made valid leaves the boot loader's selection as it
    was, and the trial FWD is made valid only by a session that finished, was neither cancelled nor suspended
    and has verified every image it downloaded. -/
theorem upgrade_power_safe (env : Env) (fu₀ : Fu) (flags : ℕ) (script : Script) (sblRank : ℕ)
    (hs : Settled sblRank fu₀.dev) (hsp : Spacious env.cfg fu₀)
    (ht : ∀ j es, bootChoice sblRank fu₀.dev ≠ some (j, (sessionArea env.cfg fu₀).trial, es))
    (ha : TrialAlone fu₀.dev (sessionArea env.cfg fu₀).trial)
    (hok : ∀ m, (Session.run env m (.start fu₀ flags script)).HeaderOk env (wideArea env.cfg fu₀))
    (hsus : ∀ m, (Session.run env m (.start fu₀ flags script)).SuspendOk) (n : ℕ) :
    let s := Session.run env n (.start fu₀ flags script)
    let s' := Session.run env (n + 1) (.start fu₀ flags script)
    ((∀ r, s.phase ≠ .done r) → ∀ k,
      bootChoice sblRank (fu₀.dev.writes ((s.fu.dev.log.drop fu₀.dev.log.length).take k)) =
        bootChoice sblRank fu₀.dev) ∧
    (∀ ret, s.phase = .finalize ret → s'.fu.dev.log = s.fu.dev.log ∨
      (s.cxt.state = .finish ∧ s.poll.cxt.sessionStatus ≠ .cancel ∧ s.poll.cxt.sessionStatus ≠ .suspend ∧
        s.DownloadsVerified env)) := by
  intro s s'
  have hinv : RunInv env (wideArea env.cfg fu₀) fu₀ s :=
    run_inv (wideArea_samePlaces _ _) hsp.sane (start_inv flags script) hok n
  refine ⟨fun hn k => ?_, fun ret hph => ?_⟩
  · rcases hinv.logged hn with hdev | ⟨-, hg⟩
    · rw [hdev, List.drop_length, List.take_nil, Dev.writes_nil]
    · rcases hg.cut k with heq | hg'
      · rw [heq]
      · exact hg'.bootChoice hsp.offFwds hs ht ha
  · have hstep : s' = s.poll.finalize ret := by
      show Session.run env (n + 1) _ = _
      rw [Session.run, Function.iterate_succ_apply']
      show s.step env = _
      rw [Session.step, hph]
    obtain ⟨sc, st, hpoll⟩ := s.poll_eq
    rw [hstep]
    rcases finalize_log s.poll ret with hlog | ⟨hc, hfin, hret⟩
    · left
      rw [hlog, Session.poll_fu]
    · right
      have hfin' : s.cxt.state = .finish := by
        rw [hpoll] at hfin
        exact hfin
      refine ⟨hfin', hc, hsus n ret hph hfin', ?_⟩
      subst hret
      rw [RunInv, hph] at hinv
      exact Inv.finish hinv hfin'

theorem Session.HeaderOk.mono {env : Env} {A B : Area} {s : Session} (h : s.HeaderOk env A)
    (hm : A.mem.size ≤ B.mem.size) (hs : A.sbl.size ≤ B.sbl.size) : s.HeaderOk env B := by
  intro hst hc ha
  obtain ⟨h₁, h₂⟩ := h hst hc ha
  exact ⟨h₁.trans hm, fun x hx hid => (h₂ x hx hid).trans hs⟩

theorem smallFu_spacious : Spacious smallAppEnv.cfg smallFu := by
  refine ⟨?_, ?_, ?_⟩ <;> rw [smallArea_eq] <;> decide

theorem smallFu_choice : bootChoice fdeImgRankCurrent smallFu.dev =
    some (indexCurrent, 0, (smallFu.dev.mem.fwd 0).imageEntries) := by decide +kernel

theorem smallFu_settled : Settled fdeImgRankCurrent smallFu.dev := ⟨_, _, _, smallFu_choice, .inl rfl⟩

theorem upgrade_power_safe_small : (∀ r, (smallRun 12).phase ≠ .done r) ∧ ∀ k,
    bootChoice fdeImgRankCurrent
        (smallFu.dev.writes (((smallRun 12).fu.dev.log.drop smallFu.dev.log.length).take k)) =
      bootChoice fdeImgRankCurrent smallFu.dev := by
  have ht : ∀ j es, bootChoice fdeImgRankCurrent smallFu.dev ≠
      some (j, (sessionArea smallAppEnv.cfg smallFu).trial, es) := by
    intro j es
    rw [smallArea_eq, smallFu_choice]
    simp
  have ha : TrialAlone smallFu.dev (sessionArea smallAppEnv.cfg smallFu).trial := by
    rw [smallArea_eq]
    intro hv
    exact absurd hv (by decide +kernel)
  have hok : ∀ m, (smallRun m).HeaderOk smallAppEnv (wideArea smallAppEnv.cfg smallFu) := by
    intro m
    refine (smallRun_headerOk m).mono ?_ ?_ <;> simp only [wideArea, smallArea_eq] <;> decide
  have hsus : ∀ m, (smallRun m).SuspendOk := fun m ret _ _ =>
    forall_of_done (n := 13) (r := .ok ()) (P := fun s => s.poll.cxt.sessionStatus ≠ .suspend)
      (by decide +kernel) (by decide +kernel) m
  have h := (upgrade_power_safe smallAppEnv smallFu 0 smallScript fdeImgRankCurrent smallFu_settled smallFu_spacious
    ht ha hok hsus 12).1
  rw [← smallRun] at h
  exact ⟨smallRun_not_done, h smallRun_not_done⟩

/-- The same upgrade, suspended once it has finished and before `fw_upgrade_session_finalize`. -/
def suspendedRun (n : ℕ) : Session := Session.run smallAppEnv n (.start smallFu 0
  ⟨[.data (smallHeader ++ smallImage)], [], List.replicate 11 none ++ [some .suspend]⟩)

/-- The trial FWD of a suspended session is made valid, and the boot loader selects it. -/
theorem suspended_session_made_valid :
    (suspendedRun 12).phase = .finalize (.ok ()) ∧ (suspendedRun 12).cxt.sessionStatus = .suspend ∧
    (suspendedRun 13).phase = .done (.error .sessionSuspend) ∧
    (suspendedRun 13).fu.dev.log = (suspendedRun 12).fu.dev.log ++ [.program 4108 [1]] ∧
    (bootChoice fdeImgRankCurrent (suspendedRun 13).fu.dev).map (fun c => (c.1, c.2.1)) = some (indexTrial, 1) := by
  decide +kernel

end Qcc730.Upgrade
