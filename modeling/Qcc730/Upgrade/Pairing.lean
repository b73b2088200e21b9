import Qcc730.Upgrade.History
import Qcc730.Upgrade.Listing

/-! A new SBL stays with the APP it came with.

    A session that brings an SBL ends with two writes: it makes the trial FWD valid and then sets the FDT entry
    of the SBL slot to TRIAL. What comes between two boots, other sessions, accepts and rejects, keeps the two
    together as long as none of it takes the FWD away from under the entry. The code does not see to that: a
    second session erases the trial FWD first thing and leaves the FDT as it is. -/

namespace Qcc730.Upgrade
open Lib Flash Sbl

/-! ### Pairs -/

/-- The FWD is valid, on trial, and has an SBL entry with the address `a`. -/
def Carries (f : Fwd) (a : ℕ) : Prop :=
  FwdIsValid f ∧ f.rank = fwdRankTrial ∧ ∃ e ∈ f.imageEntries, e.imageId = sblImgId ∧ e.startBlock = a

instance (f : Fwd) (a : ℕ) : Decidable (Carries f a) := inferInstanceAs (Decidable (_ ∧ _ ∧ _))

/-- An SBL entry of rank TRIAL. -/
def SblTrial (e : FdtEntry) : Prop := e.id = fdeImgIdSbl ∧ e.rank = fdeImgRankTrial

instance (e : FdtEntry) : Decidable (SblTrial e) := inferInstanceAs (Decidable (_ ∧ _))

/-- A FWD off the slots `ts` carries the SBL at the address `a`. -/
def CarriedOff (ts : List ℕ) (m : Mem) (a : ℕ) : Prop := ∃ t < maxFwdNum, t ∉ ts ∧ Carries (m.fwd t) a

instance (ts : List ℕ) (m : Mem) (a : ℕ) : Decidable (CarriedOff ts m a) := inferInstanceAs (Decidable (∃ t < _, _ ∧ _))

/-- Every SBL entry on trial is carried by a FWD off the slots `ts`. -/
def PairedOff (ts : List ℕ) (m : Mem) : Prop :=
  ∀ i < m.fdt.numFde, SblTrial (m.fdt.fde i) → CarriedOff ts m (m.fdt.fde i).addr

instance (ts : List ℕ) (m : Mem) : Decidable (PairedOff ts m) := inferInstanceAs (Decidable (∀ i < _, _ → _))

/-- Every SBL entry on trial is carried by a FWD. -/
abbrev Paired (m : Mem) : Prop := PairedOff [] m

section

variable {ts : List ℕ} {m m' : Mem}

theorem CarriedOff.any {a : ℕ} (h : CarriedOff ts m a) : CarriedOff [] m a := by
  obtain ⟨t, ht, -, hc⟩ := h
  exact ⟨t, ht, List.not_mem_nil, hc⟩

/-- The FWDs off `ts` have not changed. -/
theorem CarriedOff.frame {a : ℕ} (h : CarriedOff ts m a) (hf : ∀ t < maxFwdNum, t ∉ ts → m'.fwd t = m.fwd t) :
    CarriedOff [] m' a := by
  obtain ⟨t, ht, hn, hc⟩ := h
  exact ⟨t, ht, List.not_mem_nil, by rwa [hf t ht hn]⟩

/-- Neither have the entries on trial. -/
theorem PairedOff.frame (h : PairedOff ts m) (hf : ∀ t < maxFwdNum, t ∉ ts → m'.fwd t = m.fwd t)
    (hfdt : m'.fdt = m.fdt) : Paired m' := by
  intro i hi ht
  rw [hfdt] at hi ht ⊢
  exact (h i hi ht).frame hf

end

/-! ### A session -/

section

variable {env : Env} {fu₀ : Fu} {A : Area} {s : Session} {b : Bytes} {hid es : List ImageEntry}

/-- Programming the status of a trial FWD that has none makes it valid. -/
theorem fwd_program_valid {m : Mem} {t : ℕ} (h : (m.fwd t).status = 255) :
    (m.app (.program (t * 4096 + 12) [1])).fwd t = { m.fwd t with status := fwdStatusValid } := by
  have hff : m.flash (t * 4096 + 12) = 0xFF := UInt8.toNat_inj.mp h
  rw [Mem.fwd, fwd_decode_update (m := m.flash)]
  · have hrank : (m.app (.program (t * 4096 + 12) [1])).flash.word (t * 4096 + 8) = m.flash.word (t * 4096 + 8) := by
      apply Memory.word_congr
      intro k hk
      exact Memory.program_out (by simp; omega)
    have hst : (m.app (.program (t * 4096 + 12) [1])).flash (t * 4096 + 12) = 1 :=
      Memory.program_in (i := 0) (by decide) hff
    rw [hrank, hst]
    rfl
  · intro k hk hne
    exact Memory.program_out (by simp; omega)

/-- The writes of a session before its end leave the FDT and the other FWDs alone. -/
theorem Logged.paired (ho : A.OffFwds) (hl : Logged env A fu₀ s)
    (hp : A.active ≠ A.trial → PairedOff [A.trial] fu₀.dev.mem) (h : Paired fu₀.dev.mem) : Paired s.fu.dev.mem := by
  rcases hl with hdev | ⟨hL, hg⟩
  · rw [hdev]
    exact h
  · refine (hp hL.ne).frame (fun t ht hn => hg.other_fwd ho ht ?_) hg.fdt
    simpa using hn

/-- The slot that was chosen for a new SBL. -/
theorem Announced.sbl_addr {cfg : Config} {m₀ : Mem} {H : Head} (h : Announced cfg m₀ A b hid H) :
    (m₀.fdt.fde H.sblIdx).addr = A.sbl.start := by
  obtain ⟨size, hs⟩ := h.sbl
  rw [fwUpgradeSelectSblTrialFde] at hs
  split at hs
  swap
  · cases hs
  obtain ⟨i, -, hi⟩ := Option.map_eq_some_iff.mp hs
  simp only [Prod.mk.injEq] at hi
  obtain ⟨rfl, ha, -⟩ := hi
  exact ha

/-- The end of a session: the trial FWD is valid before the SBL entry is on trial. -/
theorem validate_paired (ho : A.OffFwds) (hd : HasFwds fu₀.dev)
    (hsl : A.sbl.start < 2 ^ 32) (hg : Grown A fu₀.dev s.fu.dev)
    (htr : s.cxt.trialFwdIdx = A.trial) (hl : Listing env fu₀ A b hid es s)
    (hp : PairedOff [A.trial] fu₀.dev.mem) : Paired s.validate.fu.dev.mem := by
  have hd₁ : HasFwds s.fu.dev := by
    rw [HasFwds, hg.density]
    exact hd
  have hlt : A.trial < maxFwdNum := hg.1
  rw [Session.validate, htr, setFwdInfo_eq hd₁ hlt .status fwdStatusValid]
  simp only
  set w := Write.program (A.trial * 4096 + FwdInfo.status.offset) (FwdInfo.status.encode fwdStatusValid) with hw
  have hother : ∀ t < maxFwdNum, t ∉ [A.trial] → (s.fu.dev.mem.app w).fwd t = fu₀.dev.mem.fwd t := by
    intro t ht hn
    have hne : t ≠ A.trial := by simpa using hn
    rw [hw, fwd_program_other hne (by decide)]
    exact hg.other_fwd ho ht hne
  have hbefore : Paired (s.fu.dev.mem.app w) := hp.frame hother hg.fdt
  rcases findPartition_cases A.trial sblImgId (s.fu.writes [w]) with ⟨e, he⟩ | ⟨k, j, en, -, -, -, hf, he⟩
  · rw [he]
    exact hbefore
  rw [he]
  simp only
  rcases setSblTrialFde_cases s.cxt.trialSblIdx ((Fu.setHandle (s.fu.writes [w]) k (clientOf A.trial j en)).handles k).imgVersion
    ((s.fu.writes [w]).setHandle k (clientOf A.trial j en)) with ⟨e', he'⟩ | ⟨-, -, -, -, he'⟩ <;> rw [he']
  · exact hbefore
  generalize ((Fu.setHandle (s.fu.writes [w]) k (clientOf A.trial j en)).handles k).imgVersion = v
  -- now the entry of the slot is on trial
  have hfdt : (s.fu.dev.mem.app w).fdt = fu₀.dev.mem.fdt := hg.fdt
  have hfwd : (s.fu.dev.mem.app w).fwd A.trial = { s.fu.dev.mem.fwd A.trial with status := fwdStatusValid } := by
    rw [hw]
    exact fwd_program_valid (hg.trial_status ho)
  have hcarry : Carries ((s.fu.dev.mem.app w).fwd A.trial) (fu₀.dev.mem.fdt.fde s.cxt.trialSblIdx).addr := by
    obtain ⟨hid', hk'⟩ := findEntry_id hf
    change ((s.fu.dev.mem.app w).fwd A.trial).imageEntries[j]? = some en at hk'
    have hmem : en ∈ ((s.fu.dev.mem.app w).fwd A.trial).imageEntries := List.mem_of_getElem? hk'
    rw [hfwd] at hk' hmem
    have hes := hl.lists.mem (length_entries _ _) hk' (by rw [hid']; decide)
    obtain ⟨hst, x, hx, hxid⟩ := hl.slot en (List.mem_of_getElem? hes) hid'
    rw [show (fu₀.dev.mem.fdt.fde s.cxt.trialSblIdx).addr = A.sbl.start from hl.announced.sbl_addr]
    rw [u32_of_lt hsl] at hst
    rw [hfwd]
    refine ⟨⟨?_, rfl⟩, hg.trial_rank ho, en, hmem, hid', hst⟩
    rw [← hl.header.2 ⟨x, hx, hxid⟩]
    exact hl.lists.signature
  intro i hi htrial
  change i < (s.fu.dev.mem.app w).fdt.numFde at hi
  by_cases hidx : i = s.cxt.trialSblIdx
  · refine ⟨A.trial, hlt, List.not_mem_nil, ?_⟩
    show Carries ((s.fu.dev.mem.app w).fwd A.trial) (Function.update (s.fu.dev.mem.app w).fdt.fde s.cxt.trialSblIdx _ i).addr
    rw [hidx, Function.update_self]
    show Carries _ ((s.fu.dev.mem.app w).fdt.fde s.cxt.trialSblIdx).addr
    rw [hfdt]
    exact hcarry
  · have hsame : ∀ x, Function.update (s.fu.dev.mem.app w).fdt.fde s.cxt.trialSblIdx x i =
        (s.fu.dev.mem.app w).fdt.fde i := fun x => Function.update_of_ne hidx _ _
    change SblTrial (Function.update (s.fu.dev.mem.app w).fdt.fde s.cxt.trialSblIdx _ i) at htrial
    show CarriedOff [] _ (Function.update (s.fu.dev.mem.app w).fdt.fde s.cxt.trialSblIdx _ i).addr
    rw [hsame] at htrial ⊢
    exact hbefore i hi htrial

/-- `fw_upgrade_session_finalize` of a session whose images are in place. -/
theorem Inv.validate_paired (ho : A.OffFwds) (hd : HasFwds fu₀.dev) (hsl : A.sbl.start < 2 ^ 32)
    (hi : Inv env A fu₀ s) (hst : s.cxt.state = .finish) (hl : Listed env fu₀ A s)
    (hp : A.active ≠ A.trial → PairedOff [A.trial] fu₀.dev.mem) : Paired s.validate.fu.dev.mem := by
  cases hi with
  | placed hs hL hg htr hv ht hf =>
    obtain ⟨b, hid, es, hl⟩ := hl.after hf
    exact Upgrade.validate_paired ho hd hsl hg htr hl (hp hL.ne)
  | start hs => simp [hst] at hs
  | chosen hs => simp [hst] at hs
  | early hs => simp [hst] at hs
  | between hs => simp [hst] at hs
  | image hs => simp [hst] at hs
  | copies hs => simp [hst] at hs

/-- At any time of a session. -/
theorem RunBooked.paired (ho : A.OffFwds) (hd : HasFwds fu₀.dev)
    (hsl : A.sbl.start < 2 ^ 32) (hr : RunBooked env fu₀ A (fun _ => SblHeader) s)
    (hp : A.active ≠ A.trial → PairedOff [A.trial] fu₀.dev.mem) (h : Paired fu₀.dev.mem) : Paired s.fu.dev.mem := by
  rw [RunBooked] at hr
  split at hr
  · exact hr.1.logged.paired ho hp h
  · exact hr.1.logged.paired ho hp h
  · exact Logged.paired ho hr hp h
  · rcases hr with hl | ⟨s₁, hi, hb, hst, -, hdev⟩
    · exact Logged.paired ho hl hp h
    · rw [hdev]
      exact hi.validate_paired ho hd hsl hst (hb.listed hi) hp

/-- A pass of the worker, of a session that was resumed or not. -/
theorem Tracked.RunInv.step_paired (hA : A.SamePlaces (sessionArea env.cfg fu₀)) (hS : A.Sane) (ho : A.OffFwds)
    (hd : HasFwds fu₀.dev) (hsl : A.sbl.start < 2 ^ 32) (hp : A.active ≠ A.trial → PairedOff [A.trial] fu₀.dev.mem)
    (h₀ : Paired fu₀.dev.mem) {t : Tracked} (h : t.RunInv env A fu₀) (hc : t.Contains env A)
    (hl : t.session.RunListed env fu₀ A) (hpd : Paired t.session.fu.dev.mem) :
    Paired (t.session.step env).fu.dev.mem := by
  rw [Session.step]
  split
  · rename_i hph
    simp only
    split
    · rename_i hrun
      have hsw := h.switch hA hS hc hph hrun
      rcases hr : sessionSwitch env t.session.poll with ⟨e | _ | _, s'⟩ <;> rw [hr] at hsw
      · exact Logged.paired ho hsw hp h₀
      · exact (hsw none).logged.paired ho hp h₀
      · exact (hsw none).logged.paired ho hp h₀
    · show Paired t.session.poll.fu.dev.mem
      rw [Session.poll_fu]
      exact hpd
  · rename_i ret hph
    rw [Session.finalize]
    rcases hf : t.session.poll.finalRet ret with e | u
    · simp only [Session.leave_dev, Session.poll_fu]
      exact hpd
    · obtain ⟨-, hfin, hok⟩ := finalRet_ok hf
      subst hok
      rw [Session.RunListed, hph] at hl
      have hi := (h.polled (.inr ⟨(), hph⟩)).finished hfin
      have hv := hi.validate_paired ho hd hsl hfin hl.poll hp
      simp only
      split
      · show Paired t.session.poll.validate.fin.fu.dev.mem
        rw [Session.fin_dev]
        exact hv
      · rw [Session.leave_dev, Session.poll_fu]
        exact hv
  · exact hpd

/-- All passes of a session that is resumed. -/
theorem Tracked.runs_paired (hA : A.SamePlaces (sessionArea env.cfg fu₀)) (hS : A.Sane) (ho : A.OffFwds)
    (hd : HasFwds fu₀.dev) (hsl : A.sbl.start < 2 ^ 32) (hp : A.active ≠ A.trial → PairedOff [A.trial] fu₀.dev.mem)
    (h₀ : Paired fu₀.dev.mem) (flags : ℕ) (script : Script) {n : ℕ} {rs : List (Script × ℕ)}
    (hc : (Tracked.start (.start fu₀ flags script)).Always env
      (fun t => t.Contains env A ∧ t.session.HeaderIs env SblHeader) n rs) :
    Paired ((Tracked.start (.start fu₀ flags script)).runs env n rs).session.fu.dev.mem := by
  have hlisted : Listed env fu₀ A (Session.start fu₀ flags script) :=
    Booked.listed (booked_before rfl (by simp [Session.start, Cxt.init]) rfl)
      (.start (.inl rfl) ⟨rfl, rfl, rfl, rfl, fun _ => rfl, rfl, rfl, rfl, rfl⟩)
  have hinv := Tracked.runs_inv (Q := fun t => t.Contains env A ∧ t.session.HeaderIs env SblHeader)
    (I := fun t => (t.RunInv env A fu₀ ∧ t.Current) ∧ t.session.RunListed env fu₀ A ∧ Paired t.session.fu.dev.mem)
    ?_ ?_ ⟨Tracked.start_inv flags script, hlisted.run, h₀⟩ hc
  · exact hinv.2.2
  · rintro t ⟨⟨h, hm⟩, hl, hpd⟩ ⟨hct, hP⟩
    exact ⟨⟨h.step hA hS hm hct, t.follow_current _⟩, h.step_listed hA hS ho hct hP hl,
      h.step_paired hA hS ho hd hsl hp h₀ hct hl hpd⟩
  · rintro t sc ⟨⟨h, hm⟩, hl, hpd⟩
    refine ⟨⟨h.resume hm sc, t.follow_current _⟩, hl.resume sc, ?_⟩
    show Paired (t.session.resume sc).fu.dev.mem
    rw [Session.resume_fu]
    exact hpd

end

/-! ### Accept and reject -/

section

variable {cfg : Config} {d : Dev} {handles : ℕ → Client}

/-- An accept changes the trial FWD and the current one. -/
theorem accept_paired (hc : cfg.fwdSupportNum = 2 ∨ cfg.fwdSupportNum = 3) (hd : HasFwds d) {uninit : ℕ}
    (hp : (scanView cfg.fwdSupportNum d.mem.fwd).trial ≠ fwdTrialUnused →
      (fwdBootType? d.mem.fdt).getD uninit = fwdBootTypeTrial →
      PairedOff [(scanView cfg.fwdSupportNum d.mem.fwd).trial, (scanView cfg.fwdSupportNum d.mem.fwd).current] d.mem)
    (h : Paired d.mem) : Paired (fwUpgradeAcceptTrialFwd cfg uninit ⟨d, handles⟩).2.dev.mem := by
  rcases accept_cases (s := ⟨d, handles⟩) hc hd uninit with heq | ⟨hot, hbt, heq⟩
  · rw [heq]
    exact h
  rw [heq]
  have hoff := hp hot hbt
  generalize scanView cfg.fwdSupportNum d.mem.fwd = v at *
  refine hoff.frame ?_ ?_
  · intro t _ hn
    simp only [List.mem_cons, List.not_mem_nil, or_false, not_or] at hn
    rw [Dev.writes_mem, acceptWrites, replay_cons]
    have htr : ∀ b : Bytes, b.length ≤ 4 → ∀ m : Mem, (m.app (.program (v.trial * 4096 + 8) b)).fwd t = m.fwd t :=
      fun b hb m => fwd_program_other hn.1 (by omega)
    split
    · rw [replay_cons, replay_nil, fwd_program_other hn.2 (by decide), htr _ (Nat.le_of_eq (length_le32 _))]
    · rw [replay_nil, htr _ (Nat.le_of_eq (length_le32 _))]
  · refine Mem.replay_fdt fun w hw i e => ?_
    rw [acceptWrites] at hw
    split at hw <;> simp only [List.mem_cons, List.not_mem_nil, or_false] at hw
    · rcases hw with rfl | rfl <;> simp
    · subst hw
      simp

/-- The condition on a reject: each SBL entry on trial is carried by another FWD too, or is the one taken back. -/
def RejectPairs (s : Fu) (trial : ℕ) : Prop :=
  ∀ i < s.dev.mem.fdt.numFde, SblTrial (s.dev.mem.fdt.fde i) →
    CarriedOff [trial] s.dev.mem (s.dev.mem.fdt.fde i).addr ∨ (s.clientEntry?.isSome ∧ s.dev.mem.fdt.Valid ∧
      (s.dev.mem.fdt.findIdx? fun e => e.id == fdeImgIdSbl && e.rank == fdeImgRankTrial) = some i)

instance (s : Fu) (trial : ℕ) : Decidable (RejectPairs s trial) :=
  inferInstanceAs (Decidable (∀ i < _, _ → (_ ∨ (_ ∧ _ ∧ _))))

theorem findEntry_isSome {f : Fwd} {id : ℕ} {e : ImageEntry} (he : e ∈ f.imageEntries) (hid : e.imageId = id) :
    (findEntry f id).isSome := by
  have hlt : (f.imageEntries.findIdx fun e => e.imageId = id) < f.imageEntries.length :=
    List.findIdx_lt_length_of_exists ⟨e, he, by simpa using hid⟩
  rw [findEntry, Option.isSome_map, List.getElem?_eq_getElem hlt]
  rfl

/-- A reject takes the trial FWD out, and with it one SBL entry. -/
theorem reject_paired (hc : cfg.fwdSupportNum = 2 ∨ cfg.fwdSupportNum = 3) (hd : HasFwds d)
    (hp : (scanView cfg.fwdSupportNum d.mem.fwd).trial ≠ fwdTrialUnused →
      RejectPairs ⟨d, handles⟩ (scanView cfg.fwdSupportNum d.mem.fwd).trial)
    (h : Paired d.mem) : Paired (fwUpgradeRejectTrialFwd cfg ⟨d, handles⟩).2.dev.mem := by
  rcases reject_cases (s := ⟨d, handles⟩) hc hd with heq | ⟨hot, heq⟩
  · rw [heq]
    exact h
  rw [heq]
  have hoff := hp hot
  generalize (scanView cfg.fwdSupportNum d.mem.fwd).trial = t at *
  have hother : ∀ x < maxFwdNum, x ∉ [t] → (replay Mem.app d.mem (rejectWrites t)).fwd x = d.mem.fwd x := by
    intro x _ hn
    have hne : x ≠ t := by simpa using hn
    rw [rejectWrites, replay_cons, replay_cons, replay_nil, fwd_program_other hne (by decide),
      fwd_program_other hne (by decide)]
  rw [Dev.writes_append, Dev.writes_mem, Dev.writes_mem, revertWrites]
  generalize hm : replay Mem.app d.mem (rejectWrites t) = m at hother
  have hfdt : m.fdt = d.mem.fdt := by
    rw [← hm]
    rfl
  rcases hrev : revertedFde ⟨d, handles⟩ t with _ | j
  · -- no entry is taken back
    rw [Option.map_none, Option.toList_none, replay_nil]
    intro i hi htrial
    rw [hfdt] at hi htrial ⊢
    rcases hoff i hi htrial with hcar | ⟨hcl, hv, hfi⟩
    · exact hcar.frame hother
    obtain ⟨x, hx, -, hcar⟩ := h i hi htrial
    by_cases hxt : x = t
    · subst hxt
      obtain ⟨-, -, e, he, hid, -⟩ := hcar
      rw [revertedFde, if_pos ⟨hcl, findEntry_isSome he hid, hv⟩] at hrev
      rw [hrev] at hfi
      cases hfi
    · exact CarriedOff.frame (show CarriedOff [t] _ _ from ⟨x, hx, by simpa using hxt, hcar⟩) hother
  · rw [Option.map_some, Option.toList_some, replay_cons, replay_nil]
    have hfj : (d.mem.fdt.findIdx? fun e => e.id == fdeImgIdSbl && e.rank == fdeImgRankTrial) = some j := by
      rw [revertedFde] at hrev
      split at hrev
      · exact hrev
      · cases hrev
    intro i hi htrial
    change SblTrial (Function.update m.fdt.fde j _ i) at htrial
    change i < m.fdt.numFde at hi
    show CarriedOff [] (m.app _) (Function.update m.fdt.fde j _ i).addr
    by_cases hij : i = j
    · rw [hij, Function.update_self] at htrial
      exact absurd htrial.2 (by show fdeImgRankAged ≠ fdeImgRankTrial; decide)
    · rw [Function.update_of_ne hij] at htrial ⊢
      rw [hfdt] at hi htrial ⊢
      rcases hoff i hi htrial with hcar | ⟨-, -, hfi⟩
      · exact hcar.frame hother
      · change (d.mem.fdt.findIdx? fun e => e.id == fdeImgIdSbl && e.rank == fdeImgRankTrial) = some i at hfi
        rw [hfj] at hfi
        exact absurd (Option.some.inj hfi).symm hij

end

/-! ### Between two boots -/

/-- The condition on what happens between two boots: no session, accept or reject takes the FWD away that carries
    an SBL on trial, unless the SBL goes with it. Addresses of the FDT have 32 bits. -/
def PairOk (env : Env) (d : Dev) : Event → Prop
  | .session handles flags script passes resumes =>
    SessionOk env d (.session handles flags script passes resumes) ∧
    (sessionArea env.cfg ⟨d, handles⟩).sbl.start < 2 ^ 32 ∧
    (∀ m, (Session.run env m (.start ⟨d, handles⟩ flags script)).HeaderIs env SblHeader) ∧
    (resumes ≠ [] → (Tracked.start (.start ⟨d, handles⟩ flags script)).Always env
      (fun t => t.session.HeaderIs env SblHeader) passes resumes) ∧
    ((sessionArea env.cfg ⟨d, handles⟩).active ≠ (sessionArea env.cfg ⟨d, handles⟩).trial →
      PairedOff [(sessionArea env.cfg ⟨d, handles⟩).trial] d.mem)
  | .accept _ uninit => (scanView env.cfg.fwdSupportNum d.mem.fwd).trial ≠ fwdTrialUnused →
      (fwdBootType? d.mem.fdt).getD uninit = fwdBootTypeTrial →
      PairedOff [(scanView env.cfg.fwdSupportNum d.mem.fwd).trial, (scanView env.cfg.fwdSupportNum d.mem.fwd).current] d.mem
  | .reject handles => (scanView env.cfg.fwdSupportNum d.mem.fwd).trial ≠ fwdTrialUnused →
      RejectPairs ⟨d, handles⟩ (scanView env.cfg.fwdSupportNum d.mem.fwd).trial
  | .boot _ _ _ _ => False

theorem event_paired {env : Env} (hc : env.cfg.fwdSupportNum = 2 ∨ env.cfg.fwdSupportNum = 3) {d : Dev} (hd : HasFwds d)
    (h : Paired d.mem) {e : Event} (hok : PairOk env d e) : Paired (e.full env d).mem := by
  cases e with
  | session handles flags script passes resumes =>
    obtain ⟨⟨hsp, hhd, hres⟩, hsl, hP, hPres, hp⟩ := hok
    have hsl' : (wideArea env.cfg ⟨d, handles⟩).sbl.start < 2 ^ 32 := by
      rw [(wideArea_samePlaces env.cfg ⟨d, handles⟩).sblStart]
      exact hsl
    have hp' : (wideArea env.cfg ⟨d, handles⟩).active ≠ (wideArea env.cfg ⟨d, handles⟩).trial →
        PairedOff [(wideArea env.cfg ⟨d, handles⟩).trial] d.mem := by
      rw [(wideArea_samePlaces env.cfg ⟨d, handles⟩).active, (wideArea_samePlaces env.cfg ⟨d, handles⟩).trial]
      exact hp
    have hd' : HasFwds (Fu.mk d handles).dev := hd
    rw [Event.full]
    cases resumes with
    | nil =>
      rw [Tracked.runs, Tracked.run_session]
      exact (run_booked (P := fun _ => SblHeader) (wideArea_samePlaces _ _) hsp.sane hsp.offFwds (fun _ b hb => hb.1)
        (start_booked flags script) hhd hP passes).paired hsp.offFwds hd' hsl' hp' h
    | cons r rs =>
      have hne : r :: rs ≠ [] := List.cons_ne_nil r rs
      exact Tracked.runs_paired (wideArea_samePlaces _ _) hsp.sane hsp.offFwds hd' hsl' hp' h flags script
        ((hres hne).and (hPres hne))
  | accept handles uninit => exact accept_paired hc hd hok h
  | reject handles => exact reject_paired hc hd hok h
  | boot rram fdt pbl faults => exact hok.elim

/-- The flash is as large as before. -/
theorem Event.full_density (env : Env) (d : Dev) (e : Event) (hok : PairOk env d e)
    (hc : env.cfg.fwdSupportNum = 2 ∨ env.cfg.fwdSupportNum = 3) (hd : HasFwds d) : HasFwds (e.full env d) := by
  cases e with
  | session handles flags script passes resumes =>
    rcases session_wiped hd hok.1 with heq | ⟨-, hw⟩
    · rw [heq]
      exact hd
    · obtain ⟨-, rest, hr, -⟩ := hw
      rw [hr]
      exact hd
  | accept handles uninit =>
    rcases accept_cases (s := ⟨d, handles⟩) hc hd uninit with heq | ⟨-, -, heq⟩ <;> rw [Event.full, heq] <;> exact hd
  | reject handles =>
    rcases reject_cases (s := ⟨d, handles⟩) hc hd with heq | ⟨-, heq⟩ <;> rw [Event.full, heq] <;> exact hd
  | boot rram fdt pbl faults => exact hok.elim

/-- After any sessions, accepts and rejects since a boot, an SBL entry is on trial only if a FWD that is valid and
    on trial has an SBL entry with its address, as long as none of them takes that FWD away. -/
theorem sbl_trial_paired (env : Env) (hc : env.cfg.fwdSupportNum = 2 ∨ env.cfg.fwdSupportNum = 3) (d₀ : Dev)
    (hd : HasFwds d₀) (h₀ : Paired d₀.mem) (d : Dev)
    (h : Reach (fun x y => ∃ e, PairOk env x e ∧ y = e.full env x) d₀ d) :
    ∀ i < d.mem.fdt.numFde, SblTrial (d.mem.fdt.fde i) →
      ∃ t < maxFwdNum, Carries (d.mem.fwd t) (d.mem.fdt.fde i).addr := by
  have hinv : HasFwds d ∧ Paired d.mem := by
    refine h.inv (P := fun x => HasFwds x ∧ Paired x.mem) ⟨hd, h₀⟩ ?_
    rintro x y ⟨e, hok, rfl⟩ ⟨hx, hp⟩
    exact ⟨e.full_density env x hok hc hx, event_paired hc hx hp hok⟩
  intro i hi ht
  obtain ⟨t, hlt, -, hcar⟩ := hinv.2 i hi ht
  exact ⟨t, hlt, hcar⟩

/-! ### A second session -/

/-- The entry of an SBL image of three bytes. -/
def smallSbl : ImageHdr := ⟨1, sblImgId, 1, 4096, 3, 1, hashValue smallImageHash⟩

/-- SHA-256 of the header of an all-in-one file with `smallApp` and `smallSbl`. -/
def appSblHash : ℕ := 0xee8ad3432413019dca0b65c86322199a4a21f1abf1a6cdcb870fe85a6109627d

def appSblEnv : Env := smallEnv
  [(headerPrefix fwUpgradeMagicV1 1 2 [smallApp, smallSbl], appSblHash), (smallImage, smallImageHash)]

/-- The file in one packet. -/
def appSblScript : Script := ⟨[.data (headerPrefix fwUpgradeMagicV1 1 2 [smallApp, smallSbl] ++ hashValue appSblHash ++
  smallImage ++ smallImage)], [], []⟩

/-- The session that receives it on the small device. -/
def appSblSession : Event := .session smallFu.handles 0 appSblScript 13 []

theorem appSblSession_header (m : ℕ) :
    (Session.run appSblEnv m (.start smallFu 0 appSblScript)).cxt.state = .processConfigFile →
      HeaderFits (sessionArea smallAppEnv.cfg smallFu)
        (Session.run appSblEnv m (.start smallFu 0 appSblScript)).cxt.header ∧
      SblHeader (Session.run appSblEnv m (.start smallFu 0 appSblScript)).cxt.header :=
  forall_of_done (n := 13) (r := .ok ())
    (P := fun s => s.cxt.state = .processConfigFile →
      HeaderFits (sessionArea smallAppEnv.cfg smallFu) s.cxt.header ∧ SblHeader s.cxt.header)
    (by decide +kernel) (by decide +kernel) m

theorem appSblSession_headerOk (m : ℕ) :
    (Session.run appSblEnv m (.start smallFu 0 appSblScript)).HeaderOk appSblEnv (sessionArea smallAppEnv.cfg smallFu) :=
  fun hst _ _ => (appSblSession_header m hst).1

theorem appSblSession_headerIs (m : ℕ) :
    (Session.run appSblEnv m (.start smallFu 0 appSblScript)).HeaderIs appSblEnv SblHeader :=
  fun hst _ _ => (appSblSession_header m hst).2

theorem sbl_trial_paired_session :
    PairedOff [(sessionArea smallAppEnv.cfg smallFu).trial] smallFu.dev.mem ∧
    ∀ i < (appSblSession.full appSblEnv smallFu.dev).mem.fdt.numFde,
      SblTrial ((appSblSession.full appSblEnv smallFu.dev).mem.fdt.fde i) →
      ∃ t < maxFwdNum, Carries ((appSblSession.full appSblEnv smallFu.dev).mem.fwd t)
        ((appSblSession.full appSblEnv smallFu.dev).mem.fdt.fde i).addr := by
  have hoff : PairedOff [(sessionArea smallAppEnv.cfg smallFu).trial] smallFu.dev.mem := by
    rw [smallArea_eq]
    decide +kernel
  refine ⟨hoff, ?_⟩
  refine sbl_trial_paired appSblEnv (.inl rfl) smallFu.dev (by decide) (by decide +kernel) _ (.single ?_)
  refine ⟨appSblSession, ⟨⟨smallFu_spacious, fun m => ?_, fun hne => absurd rfl hne⟩, ?_, appSblSession_headerIs,
    fun hne => absurd rfl hne, ?_⟩, rfl⟩
  · refine (appSblSession_headerOk m).mono ?_ ?_ <;>
      simp only [wideArea, show appSblEnv.cfg = smallAppEnv.cfg from rfl, smallArea_eq] <;> decide
  · change (sessionArea smallAppEnv.cfg smallFu).sbl.start < _
    rw [smallArea_eq]
    decide
  · exact fun _ => hoff

/-- A second session, whose server sends nothing, fails: it has erased the trial FWD. The SBL is still on trial, and
    no FWD carries it. -/
theorem second_session_unpairs :
    Paired smallFu.dev.mem ∧
    (Session.run appSblEnv 9 (.start ⟨appSblSession.full appSblEnv smallFu.dev, smallFu.handles⟩ 0 ⟨[], [], []⟩)).phase ≠
      .done (.ok ()) ∧
    ¬ Paired ((Event.session smallFu.handles 0 ⟨[], [], []⟩ 9 []).full appSblEnv
      (appSblSession.full appSblEnv smallFu.dev)).mem := by
  decide +kernel

end Qcc730.Upgrade
