import Qcc730.Upgrade.Indexing

/-! The ten partition handles.

    A handle is taken by the functions that open a partition and is given back by hand. The scans and the copies hold
    one or two and give them back before they return; between two passes the worker holds at most the one in
    `partition_hdl`, and only while an image is open. -/

namespace Qcc730.Upgrade
open Lib Flash

namespace Fu

/-- Only the handles `held` are taken. -/
def Holds (s : Fu) (held : List ℕ) : Prop := ∀ h < fwUpgradeMaxHandles, h ∉ held → (s.handles h).refCount = 0

/-- No handle is taken. -/
def AllFree (s : Fu) : Prop := s.Holds []

instance (s : Fu) (held : List ℕ) : Decidable (s.Holds held) :=
  inferInstanceAs (Decidable (∀ h < fwUpgradeMaxHandles, h ∉ held → (s.handles h).refCount = 0))

instance (s : Fu) : Decidable s.AllFree := inferInstanceAs (Decidable (s.Holds []))

variable {s s' : Fu} {hs : List ℕ} {h : ℕ}

theorem Holds.of_handles (hh : s'.handles = s.handles) (hs' : s.Holds hs) : s'.Holds hs := by
  rw [Holds, hh]
  exact hs'

theorem AllFree.holds (hf : s.AllFree) (hs : List ℕ) : s.Holds hs := fun k hk _ => hf k hk List.not_mem_nil

theorem Holds.setHandle (hs' : s.Holds hs) (c : Client) : (s.setHandle h c).Holds (h :: hs) := by
  intro k hk hn
  obtain ⟨hne, hn⟩ := not_or.mp (mt List.mem_cons.mpr hn)
  rw [setHandle_other hne]
  exact hs' k hk hn

theorem Holds.freeHandle (hs' : s.Holds (h :: hs)) : (s.freeHandle h).Holds hs := by
  intro k hk hn
  rw [Fu.freeHandle]
  by_cases hkh : k = h
  · rw [hkh, setHandle_same]
  · rw [setHandle_other hkh]
    exact hs' k hk fun hm => (List.mem_cons.mp hm).elim hkh hn

theorem Holds.swap {k : ℕ} (hs' : s.Holds (h :: k :: hs)) : s.Holds (k :: h :: hs) :=
  fun j hj hn => hs' j hj fun hm => hn ((List.Perm.swap k h hs).mem_iff.mp hm)

/-- With fewer than ten handles taken there is one to take. -/
theorem Holds.clientEntry? (hs' : s.Holds hs) (hlen : hs.length < fwUpgradeMaxHandles) : s.clientEntry? ≠ none := by
  intro hnone
  have hall : List.range fwUpgradeMaxHandles ⊆ hs := by
    intro k hk
    by_contra hn
    have hbusy := List.find?_eq_none.mp hnone k hk
    exact hbusy (by simpa using hs' k (List.mem_range.mp hk) hn)
  have hle := (List.nodup_range.subperm hall).length_le
  rw [List.length_range] at hle
  omega

/-- From `s` to `s'` no handle was taken and kept. -/
def Returned (s s' : Fu) : Prop := ∀ hs, s.Holds hs → s'.Holds hs

theorem Returned.refl (s : Fu) : s.Returned s := fun _ h => h

theorem Returned.trans {s t u : Fu} (h : s.Returned t) (h' : t.Returned u) : s.Returned u := fun hs hh => h' hs (h hs hh)

theorem Returned.of_handles (hh : s'.handles = s.handles) : s.Returned s' := fun _ h => h.of_handles hh

end Fu

/-! ### The functions that take a handle -/

/-- A command that takes at most the handle it returns. -/
def Takes (c : Cmd Fu FuStatus ℕ) : Prop :=
  ∀ hs, Cmd.Triple (fun s => s.Holds hs) c (fun h s => s.Holds (h :: hs)) (fun _ s => s.Holds hs)

/-- A command that fails and changes nothing, or sets the handle it returns. -/
theorem Takes.of_cases {c : Cmd Fu FuStatus ℕ} (h : ∀ s, (∃ e, c s = (.error e, s)) ∨
    ∃ (h : ℕ) (k : Client) (s' : Fu), s'.handles = s.handles ∧ c s = (.ok h, s'.setHandle h k)) : Takes c := by
  intro hs s hh
  rcases h s with ⟨e, heq⟩ | ⟨h, k, s', hs', heq⟩
  · rw [heq]
    exact hh
  · rw [heq]
    exact (hh.of_handles hs').setHandle k

theorem findPartition_takes (f id : ℕ) : Takes (fwUpgradeFindPartition f id) := by
  refine .of_cases fun s => ?_
  rcases findPartition_cases f id s with ⟨e, heq⟩ | ⟨h, i, en, -, -, -, -, heq⟩
  · exact .inl ⟨e, heq⟩
  · exact .inr ⟨h, _, s, rfl, heq⟩

theorem createPartition_takes (f id version start size : ℕ) :
    Takes (fwUpgradeCreatePartition f id version start size) := by
  refine .of_cases fun s => ?_
  rcases createPartition_cases f id version start size s with ⟨e, heq⟩ | ⟨h, -, -, -, -, -, heq⟩
  · exact .inl ⟨e, heq⟩
  · exact .inr ⟨h, _, s.writes _, rfl, heq⟩

theorem firstPartition_takes (f : ℕ) : Takes (fwUpgradeFirstPartition f) := by
  refine .of_cases fun s => ?_
  rw [fwUpgradeFirstPartition]
  split
  · exact .inl ⟨_, rfl⟩
  split
  · exact .inl ⟨_, rfl⟩
  split
  · exact .inl ⟨_, rfl⟩
  split
  · exact .inl ⟨_, rfl⟩
  split
  · exact .inl ⟨_, rfl⟩
  · exact .inr ⟨_, _, s, rfl, rfl⟩

theorem nextPartition_takes (hdl : ℕ) : Takes (fwUpgradeNextPartition hdl) := by
  refine .of_cases fun s => ?_
  rw [fwUpgradeNextPartition]
  split
  · exact .inl ⟨_, rfl⟩
  split
  · exact .inl ⟨_, rfl⟩
  split
  · exact .inl ⟨_, rfl⟩
  simp only
  split
  · exact .inl ⟨_, rfl⟩
  split
  · exact .inl ⟨_, rfl⟩
  · exact .inr ⟨_, _, s, rfl, rfl⟩

/-! ### The functions that give back what they take -/

theorem erasePartition_returned (h o n : ℕ) : (fwUpgradeErasePartition h o n).Moves Fu.Returned := by
  intro s
  rcases erasePartition_cases h o n s with ⟨r, heq, -⟩ | ⟨-, -, -, -, -, -, -, heq⟩ <;> rw [heq]
  · exact .refl s
  · exact .of_handles rfl

theorem writePartition_returned (h o : ℕ) (b : Bytes) : (fwUpgradeWritePartition h o b).Moves Fu.Returned := by
  intro s
  rcases writePartition_cases h o b s with ⟨e, heq⟩ | ⟨-, ⟨-, -, heq⟩ | ⟨-, -, heq⟩⟩ <;> rw [heq]
  · exact .refl s
  · exact .of_handles rfl
  · exact .of_handles rfl

theorem readPartition_returned (h o n : ℕ) : (fwUpgradeReadPartition h o n).Moves Fu.Returned := by
  intro s
  rw [readPartition_state]
  exact .refl s

/-- A driver call on the device of the pool. -/
theorem setFwdInfo_returned (f : ℕ) (info : FwdInfo) (v : ℕ) : (fwUpgradeSetFwdInfo f info v).Moves Fu.Returned := by
  intro s
  rw [fwUpgradeSetFwdInfo]
  split
  · exact .refl s
  split
  · exact .of_handles rfl
  · exact .of_handles rfl

theorem eraseFwd_returned (f : ℕ) : (fwUpgradeEraseFwd f).Moves Fu.Returned := by
  intro s
  rcases eraseFwd_cases f s with ⟨e, heq⟩ | ⟨-, heq⟩ <;> rw [heq]
  · exact .refl s
  · exact .of_handles rfl

theorem partitionEnd_returned (f id : ℕ) : (partitionEnd f id).Moves Fu.Returned := by
  intro s hs hh
  have h := findPartition_takes f id hs s hh
  rw [partitionEnd]
  rcases hf : fwUpgradeFindPartition f id s with ⟨e | k, s'⟩ <;> rw [hf] at h
  · exact h
  · exact Fu.Holds.freeHandle h

/-- The loop holds the handle of the entry last looked at, and one more while it moves on. -/
theorem imageSetEndLoop_returned {hs : List ℕ} : ∀ (n hdl a : ℕ) (s : Fu), s.Holds (hdl :: hs) →
    (imageSetEndLoop n hdl a s).2.Holds hs
  | 0, hdl, a, s, hh => hh.freeHandle
  | n + 1, hdl, a, s, hh => by
    have h := nextPartition_takes hdl (hdl :: hs) s hh
    rcases hn : fwUpgradeNextPartition hdl s with ⟨e | k, s'⟩ <;> rw [hn] at h <;> simp only [imageSetEndLoop, hn]
    · exact Fu.Holds.freeHandle h
    · exact imageSetEndLoop_returned n k _ _ (Fu.Holds.swap h).freeHandle

theorem imageSetEndAddr_returned (f : ℕ) : (fwUpgradeGetImageSetEndAddr f).Moves Fu.Returned := by
  intro s hs hh
  rw [fwUpgradeGetImageSetEndAddr]
  simp only
  split
  swap
  · exact hh
  have h := firstPartition_takes f hs s hh
  rcases hf : fwUpgradeFirstPartition f s with ⟨e | k, s'⟩ <;> rw [hf] at h
  · exact h
  · exact imageSetEndLoop_returned _ k _ s' h

theorem selectTrialFwd_returned (cfg : Config) : (fwUpgradeSelectTrialFwd cfg).Moves Fu.Returned := by
  have hfirst : fwUpgradeGetFirstProgrammingImageStartAddress.Moves Fu.Returned :=
    .bind .trans (.gets .refl _) fun _ => .bind .trans (partitionEnd_returned _ _) fun _ =>
      .bind .trans (partitionEnd_returned _ _) fun _ => .bind .trans (partitionEnd_returned _ _) fun _ =>
        .bind .trans (partitionEnd_returned _ _) fun _ => .pure .refl _
  refine .ite (.fail .refl _) (.bind .trans (.gets .refl _) fun _ => .bind .trans hfirst fun _ =>
    .bind .trans (.gets .refl _) fun _ => .ite (.ite ?_ (.pure .refl _)) ?_)
  · exact .bind .trans (imageSetEndAddr_returned 0) fun _ => .ite (.pure .refl _) (.pure .refl _)
  · exact .bind .trans (imageSetEndAddr_returned 0) fun _ => .pure .refl _

theorem downloadFlags_returned (env : Env) (active : ℕ) : ∀ (xs : List ImageHdr) (s : Fu),
    s.Returned (downloadFlags env active xs s).2
  | [], s => .refl s
  | x :: xs, s => by
    have hone : s.Returned (needDownload env active x s).2 := by
      intro hs hh
      rw [needDownload]
      split
      swap
      · exact hh
      have h := findPartition_takes active x.imageId hs s hh
      rcases hf : fwUpgradeFindPartition active x.imageId s with ⟨e | k, s'⟩ <;> rw [hf] at h
      · exact h
      · exact Fu.Holds.freeHandle h
    exact hone.trans (downloadFlags_returned env active xs _)

theorem copyBlocks_returned (src dst : ℕ) : ∀ (os : List ℕ) (buf : Bytes) (s : Fu),
    s.Returned (copyBlocks src dst os buf s).2
  | [], buf, s => .refl s
  | o :: os, buf, s => by
    rw [copyBlocks]
    have he := erasePartition_returned dst o 4096 s
    rcases hs : fwUpgradeErasePartition dst o 4096 s with ⟨e | u, s₁⟩ <;> rw [hs] at he
    · exact he
    · simp only
      set b := ((fwUpgradeReadPartition src o 4096 s).1.toOption).getD buf
      have hw := writePartition_returned dst o b s₁
      rcases hs' : fwUpgradeWritePartition dst o b s₁ with ⟨e | u, s₂⟩ <;> rw [hs'] at hw
      · exact he.trans hw
      · exact (he.trans hw).trans (copyBlocks_returned src dst os b s₂)

theorem copyFs_returned (src dst : ℕ) : ∀ os : List ℕ, (copyFs src dst os).Moves Fu.Returned
  | [] => .pure .refl _
  | o :: os =>
    .bind .trans ((readPartition_returned src o 4096).orFail _) fun _ =>
      .bind .trans ((erasePartition_returned dst o 4096).orFail _) fun _ =>
        .bind .trans ((writePartition_returned dst o _).orFail _) fun _ => copyFs_returned src dst os

/-- Both handles are given back, whichever partition is missing. -/
theorem processDuplicateFs_returned (active : ℕ) : (fwUpgradeProcessDuplicateFs active).Moves Fu.Returned := by
  intro s hs hh
  rw [fwUpgradeProcessDuplicateFs]
  have h₁ := findPartition_takes active fs1ImgId hs s hh
  rcases hf₁ : fwUpgradeFindPartition active fs1ImgId s with ⟨e | k₁, s₁⟩ <;> rw [hf₁] at h₁
  · exact h₁
  simp only
  have h₂ := findPartition_takes active fs2ImgId (k₁ :: hs) s₁ h₁
  rcases hf₂ : fwUpgradeFindPartition active fs2ImgId s₁ with ⟨e | k₂, s₂⟩ <;> rw [hf₂] at h₂
  · exact Fu.Holds.freeHandle h₂
  · have h₃ := copyFs_returned k₁ k₂ (blockOffsets (s₂.handles k₁).imgSize) s₂ _ h₂
    exact h₃.swap.freeHandle.freeHandle

/-! ### A session -/

namespace Session

/-- No handle is taken but that of the open partition. -/
def HoldsOwn (s : Session) : Prop := s.fu.Holds s.cxt.partitionHdl.toList

/-- In the loop of the worker, with nothing open. -/
def Free (s : Session) : Prop := s.phase = .process ∧ s.fu.AllFree

/-- In the loop of the worker, with nothing open but the partition of the session. -/
def Holding (s : Session) : Prop := s.phase = .process ∧ s.HoldsOwn

variable {s s' : Session}

theorem Free.holding (h : s.Free) : s.Holding := ⟨h.1, h.2.holds _⟩

/-- From `s` to `s'` no handle was taken and kept, and the partition of the session is the same. -/
structure Balanced (s s' : Session) : Prop where
  phase : s'.phase = s.phase
  fu : s.fu.Returned s'.fu
  hdl : s'.cxt.partitionHdl = s.cxt.partitionHdl

theorem Balanced.refl (s : Session) : Balanced s s := ⟨rfl, .refl _, rfl⟩

theorem Balanced.trans {s t u : Session} (h : Balanced s t) (h' : Balanced t u) : Balanced s u :=
  ⟨h'.phase.trans h.phase, h.fu.trans h'.fu, h'.hdl.trans h.hdl⟩

theorem Free.balanced (h : s.Free) (hb : Balanced s s') : s'.Free := ⟨hb.phase.trans h.1, hb.fu _ h.2⟩

theorem Holding.balanced (h : s.Holding) (hb : Balanced s s') : s'.Holding := by
  refine ⟨hb.phase.trans h.1, ?_⟩
  rw [HoldsOwn, hb.hdl]
  exact hb.fu _ h.2

/-- The session gives its partition back. -/
theorem HoldsOwn.freePartitionHdl (h : s.HoldsOwn) : s.freePartitionHdl.fu.AllFree := by
  rw [HoldsOwn] at h
  rw [Session.freePartitionHdl]
  cases hp : s.cxt.partitionHdl with
  | none =>
    rw [hp] at h
    exact h
  | some k =>
    rw [hp] at h
    exact Fu.Holds.freeHandle h

theorem freePartitionHdl_phase (s : Session) : s.freePartitionHdl.phase = s.phase := by
  rw [Session.freePartitionHdl]
  split <;> rfl

theorem Holding.freePartitionHdl (h : s.Holding) : s.freePartitionHdl.Free :=
  ⟨s.freePartitionHdl_phase.trans h.1, h.2.freePartitionHdl⟩

end Session

theorem onFu_balanced {α : Type} {c : Cmd Fu FuStatus α} (h : c.Moves Fu.Returned) : (onFu c).Moves Session.Balanced :=
  h.zoom fun _ _ hr => ⟨rfl, hr, rfl⟩

/-- What the session opens is its partition. -/
theorem onFu_takes {c : Cmd Fu FuStatus ℕ} (h : Takes c) (e : FuStatus) : Cmd.Triple Session.Free ((onFu c).orFail e)
    (fun k s => s.phase = .process ∧ s.fu.Holds [k]) (fun _ => Session.Free) := by
  refine .orFail (.zoom fun s hs => ?_) fun _ _ hs => hs
  have ht := h [] s.fu hs.2
  rcases hc : c s.fu with ⟨e | k, fu'⟩ <;> rw [hc] at ht <;> exact ⟨hs.1, ht⟩

theorem setPartitionHdl_holding (k : ℕ) : Cmd.Triple (fun s : Session => s.phase = .process ∧ s.fu.Holds [k])
    (Cmd.modify fun s => s.setCxt fun c => { c with partitionHdl := some k } : Cmd Session FuStatus Unit)
    (fun _ => Session.Holding) (fun _ => Session.Free) := .modify fun _ hs => hs

theorem openPartition_holding (f id : ℕ) (e : FuStatus) : Cmd.Triple Session.Free (openPartition f id e)
    (fun _ => Session.Holding) (fun _ => Session.Free) :=
  .bind (onFu_takes (findPartition_takes f id) e) fun k => .bind (setPartitionHdl_holding k) fun _ => .gets fun _ hs => hs

theorem create_holding (id version start size : ℕ) : Cmd.Triple Session.Free (createPartition id version start size)
    (fun _ => Session.Holding) (fun _ => Session.Free) :=
  .bind (R := fun _ => Session.Free) (.gets fun _ hs => hs) fun trial =>
    .bind (onFu_takes (createPartition_takes trial id version start size) _) setPartitionHdl_holding

theorem freePartitionHdl_free : Cmd.Triple Session.Holding
    (Cmd.modify Session.freePartitionHdl : Cmd Session FuStatus Unit) (fun _ => Session.Free) (fun _ => Session.Free) :=
  .modify fun _ hs => hs.freePartitionHdl

theorem locatePartition_free (id : ℕ) (e : FuStatus) : Cmd.Triple Session.Free (locatePartition id e)
    (fun _ => Session.Free) (fun _ => Session.Free) :=
  .bind (R := fun _ => Session.Free) (.gets fun _ hs => hs) fun active => .bind (openPartition_holding active id e)
    fun _ => .bind freePartitionHdl_free fun _ => .pure fun _ hs => hs

theorem createHidden_free (id : ℕ) (c : Client) : Cmd.Triple Session.Free (createHidden id c)
    (fun _ => Session.Free) (fun _ => Session.Free) :=
  .bind (create_holding _ _ _ _) fun _ => .modify fun _ hs =>
    Session.Holding.freePartitionHdl (s := Session.setCxt _ _) hs

theorem createFs1_holding (h : ImageHdr) : Cmd.Triple Session.Free (createFs1 h)
    (fun _ => Session.Holding) (fun _ => Session.Free) :=
  .bind (locatePartition_free _ _) fun _ => .bind (R := fun _ => Session.Free)
    ((Cmd.Moves.ensure .refl _ _ : Cmd.Moves Session.Balanced _).keeps fun hb hs => hs.balanced hb) fun _ =>
      create_holding _ _ _ _

theorem erase_balanced (offset nbytes : ℕ) : (erasePartition offset nbytes).Moves Session.Balanced := by
  refine .bind .trans (.gets .refl _) fun hdl => ?_
  cases hdl with
  | none => exact .fail .refl _
  | some h => exact (onFu_balanced (erasePartition_returned h offset nbytes)).orFail _

theorem write_balanced (offset : ℕ) (b : Bytes) : (writePartition offset b).Moves Session.Balanced := by
  refine .bind .trans (.gets .refl _) fun hdl => ?_
  cases hdl with
  | none => exact .fail .refl _
  | some h => exact (onFu_balanced (writePartition_returned h offset b)).orFail _

/-- The two handles of each image copied are given back. -/
theorem duplicateLoop_balanced : ∀ (xs : List (ℕ × ImageHdr)) (err : Option FuStatus) (buf : Bytes) (s : Session),
    Session.Balanced s (duplicateLoop xs err buf s).2
  | [], err, buf, s => .refl _
  | (i, x) :: xs, err, buf, s => by
    rw [duplicateLoop]
    split
    swap
    · exact duplicateLoop_balanced xs err buf s
    have h₁ := fun hs => findPartition_takes s.activeFwd x.imageId hs s.fu
    rcases hf₁ : fwUpgradeFindPartition s.activeFwd x.imageId s.fu with ⟨e | src, fu₁⟩ <;> rw [hf₁] at h₁
    · exact ⟨rfl, h₁, rfl⟩
    simp only
    have h₂ := fun hs hh => createPartition_takes s.cxt.trialFwdIdx x.imageId x.version s.cxt.trialMemStart x.diskSize
      (src :: hs) fu₁ (h₁ hs hh)
    rcases hf₂ : fwUpgradeCreatePartition s.cxt.trialFwdIdx x.imageId x.version s.cxt.trialMemStart x.diskSize fu₁ with
      ⟨e | dst, fu₂⟩ <;> rw [hf₂] at h₂
    · exact ⟨rfl, fun hs hh => (h₂ hs hh : fu₂.Holds _).freeHandle, rfl⟩
    · have h₃ := copyBlocks_returned src dst (blockOffsets x.diskSize) buf fu₂
      simp only
      refine Session.Balanced.trans ?_ (duplicateLoop_balanced xs _ _ _)
      exact ⟨rfl, fun hs hh => (h₃ _ (h₂ hs hh)).swap.freeHandle.freeHandle, rfl⟩

/-! ### The states of the worker -/

/-- The command leaves nothing open, unless it fails: then it may leave the partition of the session. -/
abbrev Closes {α : Type} (c : Cmd Session FuStatus α) : Prop :=
  Cmd.Triple Session.Free c (fun _ => Session.Free) (fun _ => Session.Holding)

/-- The command leaves nothing open but the partition of the session. -/
abbrev KeepsOpen {α : Type} (P : Session → Prop) (c : Cmd Session FuStatus α) : Prop :=
  Cmd.Triple P c (fun _ => Session.Holding) (fun _ => Session.Holding)

section

variable {α : Type} {c : Cmd Session FuStatus α}

theorem closes_of_free (h : Cmd.Triple Session.Free c (fun _ => Session.Free) (fun _ => Session.Free)) : Closes c :=
  h.weaken (fun _ hs => hs) (fun _ _ hs => hs) fun _ _ hs => hs.holding

theorem closes_of_balanced (h : c.Moves Session.Balanced) : Closes c :=
  closes_of_free (h.keeps fun hb hs => hs.balanced hb)

theorem keepsOpen_of_balanced (h : c.Moves Session.Balanced) : KeepsOpen Session.Holding c :=
  h.keeps fun hb hs => hs.balanced hb

theorem keepsOpen_of_free (h : Cmd.Triple Session.Free c (fun _ => Session.Holding) (fun _ => Session.Free)) :
    KeepsOpen Session.Free c := h.weaken (fun _ hs => hs) (fun _ _ hs => hs) fun _ _ hs => hs.holding

end

/-- A change of the context that keeps the partition. -/
theorem modify_balanced {f : Cxt → Cxt} (h : ∀ c, (f c).partitionHdl = c.partitionHdl) :
    (Cmd.modify fun s => s.setCxt f : Cmd Session FuStatus Unit).Moves Session.Balanced := fun s => ⟨rfl, .refl _, h s.cxt⟩

/-- A session with nothing open, in a state that receives no image. -/
def Session.Resting (s : Session) : Prop := s.Free ∧ s.cxt.state ≠ .processImage

/-- The command ends in such a session. -/
abbrev Rests (c : Cmd Session FuStatus Unit) : Prop :=
  Cmd.Triple Session.Free c (fun _ => Session.Resting) (fun _ => Session.Holding)

theorem setState_rests {t : State} (ht : t ≠ .processImage) : Rests (Cmd.modify fun s => s.setState t) :=
  .modify fun _ hs => ⟨hs, ht⟩

theorem getTrialInfo_rests (env : Env) : Rests (getTrialInfo env) :=
  .bind (closes_of_balanced ((onFu_balanced (selectTrialFwd_returned env.cfg)).orFail _)) fun r =>
    .bind (closes_of_balanced (modify_balanced fun _ => rfl)) fun _ =>
      .bind (closes_of_balanced (.ensure .refl _ _)) fun _ => setState_rests (by decide)

theorem eraseFwd_rests (env : Env) : Rests (eraseFwd env) :=
  .bind (closes_of_balanced (.gets .refl _)) fun trial =>
    .bind (closes_of_balanced ((onFu_balanced (eraseFwd_returned trial)).orFail _)) fun _ =>
      setState_rests (by split <;> decide)

theorem eraseSecondFs_rests : Rests eraseSecondFs :=
  .bind (closes_of_balanced (.gets .refl _)) fun active =>
    .bind (keepsOpen_of_free (openPartition_holding active _ _)) fun c =>
      .bind (keepsOpen_of_balanced (erase_balanced 0 c.imgSize)) fun _ =>
        .modify fun _ hs => ⟨hs.freePartitionHdl, State.noConfusion⟩

theorem prepareRamdump_closes : Closes prepareRamdump := by
  refine .bind (closes_of_balanced (.gets .refl _)) fun active => .bind (R := fun r s =>
    Except.rec (motive := fun _ => Prop) (fun _ => s.Free) (fun _ => s.Holding) r) ((openPartition_holding active _ _).attempt (fun _ _ hs => hs) fun _ _ hs => hs) fun r => ?_
  cases r with
  | error e => exact .pure fun _ hs => hs
  | ok c =>
    refine .bind (keepsOpen_of_balanced (.gets .refl _)) fun hdl => ?_
    refine .bind (keepsOpen_of_balanced ((onFu_balanced (readPartition_returned _ 0 4)).orFail _)) fun magic => ?_
    refine .bind (keepsOpen_of_balanced (.when .refl (erase_balanced 0 c.imgSize))) fun _ => ?_
    exact .bind (.modify fun _ hs => hs.freePartitionHdl) fun _ => closes_of_free (createHidden_free _ c)

theorem prepareUserdata_closes : Closes prepareUserdata := by
  refine .bind (R := fun _ => Session.Free)
    ((locatePartition_free _ _).attempt (fun _ _ hs => hs) fun _ _ hs => hs) fun r => ?_
  cases r with
  | error e => exact .pure fun _ hs => hs
  | ok c => exact closes_of_free (createHidden_free _ c)

theorem prepareFs_rests (env : Env) : Rests (prepareFs env) := by
  have hfs : Closes prepareFs2 := closes_of_free (.bind (locatePartition_free _ _) fun c => createHidden_free _ c)
  refine .bind (R := fun _ => Session.Free) (.when (fun s hs => hfs s hs.1) fun _ hs _ => hs) fun _ => ?_
  exact .bind prepareRamdump_closes fun _ => .bind prepareUserdata_closes fun _ => setState_rests (by decide)

theorem connect_balanced : connect.Moves Session.Balanced := by
  intro s
  rw [connect]
  split <;> exact ⟨rfl, .refl _, rfl⟩

theorem connectServer_rests : Rests connectServer :=
  .bind (closes_of_balanced (modify_balanced fun _ => rfl)) fun _ => .bind (closes_of_balanced connect_balanced) fun _ =>
    setState_rests (by decide)

theorem duplicateFs_rests : Rests duplicateFs :=
  .bind (closes_of_balanced (.when .refl (.bind .trans (.gets .refl _) fun active =>
    onFu_balanced (processDuplicateFs_returned active)))) fun _ => setState_rests (by decide)

theorem duplicateImages_rests (env : Env) : Rests (duplicateImages env) := by
  intro s hs
  rw [duplicateImages]
  have h := duplicateLoop_balanced ((List.range s.cxt.totalImages).map fun i => (i, s.cxt.hdrAt env i)) none
    ((List.range 4096).map env.heap) s
  rcases hr : duplicateLoop ((List.range s.cxt.totalImages).map fun i => (i, s.cxt.hdrAt env i)) none
    ((List.range 4096).map env.heap) s with ⟨_ | e, s'⟩ <;> rw [hr] at h
  · have hfree : s'.Free := hs.balanced h
    exact ⟨hfree, State.noConfusion⟩
  · exact (hs.balanced h).holding

/-- The file system of an image without bytes is created and closed in one pass. -/
theorem prepareConnect_rests (env : Env) {s : Session} (hs : s.Free) (hst : s.cxt.state = .prepareConnect) :
    Cmd.Ends (fun _ => Session.Resting) (fun _ => Session.Holding) (prepareConnect env s) := by
  rw [prepareConnect, Cmd.bind_ok (Cmd.gets_apply _ _)]
  by_cases hf : s.cxt.isFirst = true
  · rw [if_pos hf]
    exact ⟨hs, State.noConfusion⟩
  rw [if_neg hf, Cmd.bind_ok (Cmd.modify_apply _ _), Cmd.bind_ok (Cmd.gets_apply _ _)]
  generalize hs₁ : s.setCxt (fun c => { c with
    imageIndex := nextDownload c.downloadFlag c.imageIndex c.totalImages }) = s₁
  have hfree : s₁.Free := by
    rw [← hs₁]
    exact hs
  have hst₁ : s₁.cxt.state = .prepareConnect := by
    rw [← hs₁]
    exact hst
  generalize s₁.cxt.hdrAt env s₁.cxt.imageIndex = x
  by_cases hx : x.imageId = fs1ImgId ∧ x.imageLength = 0
  swap
  · rw [if_neg hx]
    refine ⟨hfree, ?_⟩
    show (if s₁.cxt.totalImages ≤ s₁.cxt.imageIndex then State.duplicateImages else State.connectServer) ≠ _
    split <;> decide
  rw [if_pos hx]
  have hc := createFs1_holding x s₁ hfree
  have hstill := createFs1_still x s₁
  rcases hr : createFs1 x s₁ with ⟨e | u, s₂⟩ <;> rw [hr] at hc hstill
  · rw [Cmd.bind_error hr]
    exact Session.Free.holding hc
  · rw [Cmd.bind_ok hr]
    refine ⟨Session.Holding.freePartitionHdl hc, ?_⟩
    show s₂.freePartitionHdl.cxt.state ≠ _
    rw [(freePartitionHdl_still s₂).state, hstill.state, hst₁]
    decide

/-! ### The header -/

/-- A session with nothing open that receives images only after the header. -/
def Session.Quiet (s : Session) : Prop := s.Free ∧ (s.cxt.state = .processImage → s.cxt.isFirst = false)

theorem Session.Resting.quiet {s : Session} (h : s.Resting) : s.Quiet := ⟨h.1, fun hst => absurd hst h.2⟩

theorem nextStage_quiet (env : Env) {s : Session} (hs : s.Free) : (nextStage env s).2.Quiet := by
  rw [nextStage]
  split
  · exact ⟨hs, fun _ => rfl⟩
  · exact ⟨⟨hs.1, downloadFlags_returned env s.activeFwd s.cxt.imageHdr s.fu _ hs.2⟩, fun _ => rfl⟩

theorem processConfigFile_quiet (env : Env) {s : Session} (hs : s.Free) (hst : s.cxt.state = .processConfigFile) :
    Cmd.Ends (fun _ => Session.Quiet) (fun _ => Session.Holding) (fwUpgradeProcessConfigFile env s) := by
  rw [fwUpgradeProcessConfigFile]
  have hstate : s.cxt.receiveConfig.2.state ≠ .processImage := by
    rcases s.cxt.receiveConfig_keeps.2.2.2.2 with h | h <;> rw [h] <;> simp [hst]
  rcases hr : s.cxt.receiveConfig with ⟨e | (_ | b), c⟩ <;> rw [hr] at hstate
  · exact Session.Free.holding (s := { s with cxt := { c with configBuf := none } }) hs
  · exact ⟨hs, fun h => absurd h hstate⟩
  simp only
  rcases parseConfig_cases env { s with cxt := c } b with ⟨-, e, c', ws, heq, -⟩ | ⟨-, i, start, size, -, -, heq⟩
  · rw [heq]
    exact Session.Free.holding (s := Session.setCxt _ _) ⟨hs.1, hs.2.of_handles rfl⟩
  · have hq := nextStage_quiet env (s := ({ s with cxt := c } : Session).configured b i start size)
      ⟨hs.1, hs.2.of_handles rfl⟩
    obtain ⟨s', hs'⟩ := nextStage_ok env (({ s with cxt := c } : Session).configured b i start size)
    rw [hs'] at hq
    rw [heq, hs']
    exact hq

/-! ### The images -/

/-- A session in the loop of `fw_upgrade_process_receive_image`. -/
structure Session.Loading (s : Session) : Prop where
  holding : s.Holding
  closed : s.cxt.imageWrtLength = 0 → s.Free
  isFirst : s.cxt.isFirst = false
  state : s.cxt.state = .processImage

/-- How an image ends: nothing is open; the loop ends with the file of a partial upgrade, and with the last image. -/
def Session.Ended (last : Bool) (s : Session) : Prop :=
  s.Loading ∨ (s.Resting ∧ (last = true ∨ s.cxt.format = formatPartialUpgrade))

/-- The context is the same. -/
def SameCxt (s s' : Session) : Prop := s'.cxt = s.cxt

theorem SameCxt.refl (s : Session) : SameCxt s s := rfl

theorem SameCxt.trans {s t u : Session} (h : SameCxt s t) (h' : SameCxt t u) : SameCxt s u := Eq.trans h' h

theorem erase_cxt (offset nbytes : ℕ) : (erasePartition offset nbytes).Moves SameCxt := by
  refine .bind .trans (.gets .refl _) fun hdl => ?_
  cases hdl with
  | none => exact .fail .refl _
  | some h => exact (show (onFu (fwUpgradeErasePartition h offset nbytes)).Moves SameCxt from fun _ => rfl).orFail _

theorem eraseNext_cxt : eraseNext.Moves SameCxt :=
  .when .refl (.bind .trans (.gets .refl _) fun _ => erase_cxt _ _)

theorem eraseNext_balanced : eraseNext.Moves Session.Balanced :=
  .when .refl (.bind .trans (.gets .refl _) fun _ => erase_balanced _ _)

theorem writeImage_balanced (n : ℕ) : (writeImage n).Moves Session.Balanced :=
  .bind .trans (.gets .refl _) fun _ => .bind .trans (modify_balanced fun _ => rfl) fun _ =>
    .bind .trans (.bind .trans (.gets .refl _) fun _ => .ite (erase_balanced _ _) (.pure .refl _)) fun _ =>
      .bind .trans (.gets .refl _) fun _ => .bind .trans (write_balanced _ _) fun _ => modify_balanced fun _ => rfl

theorem verifyImageHash_balanced (env : Env) (h : ImageHdr) : (verifyImageHash env h).Moves Session.Balanced := by
  intro s
  rw [verifyImageHash]
  split <;> exact ⟨rfl, .refl _, rfl⟩

theorem closeImage_closes (x : ImageHdr) {s : Session} (hs : s.Holding) (hf : s.cxt.isFirst = false)
    (hst : s.cxt.state = .processImage) : ∃ s', closeImage x s = (.ok (), s') ∧ s'.Free ∧ s'.Loading := by
  have hk := freePartitionHdl_still s
  refine ⟨_, rfl, hs.freePartitionHdl, ?_, fun _ => hs.freePartitionHdl, ?_, ?_⟩
  · exact Session.Free.holding (s := Session.setCxt _ _) hs.freePartitionHdl
  · exact hk.isFirst.trans hf
  · exact hk.state.trans hst

theorem finishImage_ended (env : Env) (x : ImageHdr) {s : Session} (hs : s.Holding) (hf : s.cxt.isFirst = false)
    (hst : s.cxt.state = .processImage) :
    Cmd.Ends Session.Ended (fun _ => Session.Holding) (finishImage env x s) := by
  rw [finishImage]
  have hb := verifyImageHash_balanced env x s
  have hv := verifyImageHash_steady env x s
  rcases hr : verifyImageHash env x s with ⟨e | u, s₁⟩ <;> rw [hr] at hb hv
  · rw [Cmd.bind_error hr]
    exact hs.balanced hb
  obtain ⟨s₂, hcl, hfree, hload⟩ := closeImage_closes x (hs.balanced hb) (hv.isFirst.trans hf) (hv.state.trans hst)
  rw [Cmd.bind_ok hr, Cmd.bind_ok hcl, Cmd.bind_ok (Cmd.gets_apply _ _)]
  by_cases hp : s₂.cxt.format = formatPartialUpgrade
  · rw [if_pos hp]
    exact .inr ⟨⟨hfree, State.noConfusion⟩, .inr hp⟩
  rw [if_neg hp]
  by_cases hl : s₂.cxt.totalImages ≤ s₂.cxt.imageIndex
  · rw [if_pos hl]
    exact .inr ⟨⟨hfree, State.noConfusion⟩, .inl rfl⟩
  · rw [if_neg hl]
    exact .inl hload

/-- An image that is not done is open. -/
theorem finishIfWritten_ended (env : Env) (x : ImageHdr) {s : Session} (hs : s.Holding) (hf : s.cxt.isFirst = false)
    (hst : s.cxt.state = .processImage) :
    Cmd.Ends Session.Ended (fun _ => Session.Holding) (finishIfWritten env x s) := by
  rw [finishIfWritten]
  split
  · exact finishImage_ended env x hs hf hst
  · rename_i hlt
    exact .inl ⟨hs, fun h0 => absurd (h0.le.trans (Nat.zero_le _)) hlt, hf, hst⟩

/-- How a pass of the loop ends: it goes on only in the loop. -/
def Session.PassedTo (go : Bool) (s : Session) : Prop := s.Loading ∨ (go = false ∧ s.Resting)

theorem receivePiece_passed (env : Env) (x : ImageHdr) {s : Session} (hs : s.Holding) (hf : s.cxt.isFirst = false)
    (hst : s.cxt.state = .processImage) :
    Cmd.Ends Session.PassedTo (fun _ => Session.Holding) (receivePiece env x s) := by
  rw [receivePiece, Cmd.bind_ok (Cmd.gets_apply _ _)]
  rcases s.cxt.writeLen with e | n
  · exact hs
  simp only
  rw [Cmd.bind_ok (Cmd.modify_apply _ _)]
  generalize hs₁ : s.setCxt (fun c => { c with
    bufOffset := if c.format = formatPartialUpgrade then 0 else c.bufOffset }) = s₁
  obtain ⟨hold₁, hf₁, hst₁⟩ : s₁.Holding ∧ s₁.cxt.isFirst = false ∧ s₁.cxt.state = .processImage := by
    rw [← hs₁]
    exact ⟨hs, hf, hst⟩
  have hb := writeImage_balanced n s₁
  have hw := writeImage_steady n s₁
  rcases hr : writeImage n s₁ with ⟨e | u, s₂⟩ <;> rw [hr] at hb hw
  · rw [Cmd.bind_error hr]
    exact hold₁.balanced hb
  rw [Cmd.bind_ok hr]
  have hend := finishIfWritten_ended env x (hold₁.balanced hb) (hw.isFirst.trans hf₁) (hw.state.trans hst₁)
  rcases hr₃ : finishIfWritten env x s₂ with ⟨e | last, s₃⟩ <;> rw [hr₃] at hend
  · rw [Cmd.bind_error hr₃]
    exact hend
  rw [Cmd.bind_ok hr₃]
  by_cases hlast : last = true
  · rw [if_pos hlast]
    exact hend.elim .inl fun h => .inr ⟨rfl, h.1⟩
  rw [if_neg hlast]
  have hb₄ := eraseNext_balanced s₃
  have hc₄ : (eraseNext s₃).2.cxt = s₃.cxt := eraseNext_cxt s₃
  rcases hr₄ : eraseNext s₃ with ⟨e | u, s₄⟩ <;> rw [hr₄] at hb₄ hc₄
  · rw [Cmd.bind_error hr₄]
    rcases hend with h | h
    · exact h.holding.balanced hb₄
    · exact h.1.1.holding.balanced hb₄
  rw [Cmd.bind_ok hr₄]
  rcases hend with h | ⟨h, hp⟩
  · refine .inl ⟨h.holding.balanced hb₄, fun h0 => ?_, ?_, ?_⟩
    · exact (h.closed (by rwa [hc₄] at h0)).balanced hb₄
    · rw [hc₄]
      exact h.isFirst
    · rw [hc₄]
      exact h.state
  · refine .inr ⟨?_, h.1.balanced hb₄, by rw [hc₄]; exact h.2⟩
    have hpart : s₄.cxt.format = formatPartialUpgrade := by
      rw [hc₄]
      exact hp.resolve_left hlast
    simp [hpart]

theorem openImage_opens (x : ImageHdr) : KeepsOpen Session.Free (openImage x) := by
  refine .bind (closes_of_balanced (modify_balanced fun _ => rfl)) fun _ => .ite (fun _ => ?_) fun _ => ?_
  · exact keepsOpen_of_free (createFs1_holding x)
  · exact .bind (closes_of_balanced (.gets .refl _)) fun _ => .bind (keepsOpen_of_free (create_holding _ _ _ _)) fun _ =>
      keepsOpen_of_balanced (erase_balanced _ _)

theorem receivePass_passed (env : Env) :
    Cmd.Triple Session.Loading (receivePass env) Session.PassedTo (fun _ => Session.Holding) := by
  intro s hl
  rw [receivePass, Cmd.bind_ok (Cmd.gets_apply _ _)]
  generalize s.cxt.hdrAt env s.cxt.imageIndex = x
  by_cases hend : s.cxt.format ≠ formatPartialUpgrade ∧ s.cxt.buffer.length ≤ s.cxt.bufOffset
  · rw [if_pos hend]
    exact .inl hl
  rw [if_neg hend]
  by_cases hopen : s.cxt.imageWrtLength = 0
  swap
  · rw [if_neg hopen]
    exact receivePiece_passed env x hl.holding hl.isFirst hl.state
  rw [if_pos hopen]
  have ho := openImage_opens x s (hl.closed hopen)
  have hst := openImage_steady x s
  rcases hr : openImage x s with ⟨e | u, s₁⟩ <;> rw [hr] at ho hst
  · rw [Cmd.bind_error hr]
    exact ho
  rw [Cmd.bind_ok hr]
  have hf₁ := hst.isFirst.trans hl.isFirst
  have hst₁ := hst.state.trans hl.state
  by_cases hempty : s.cxt.format ≠ formatPartialUpgrade ∧ x.imageLength = 0
  · obtain ⟨s₂, hcl, hfree, hload⟩ := closeImage_closes x ho hf₁ hst₁
    rw [if_pos hempty, Cmd.bind_ok hcl, Cmd.bind_ok (Cmd.gets_apply _ _)]
    by_cases ht : s₂.cxt.totalImages ≤ s₂.cxt.imageIndex
    · rw [if_pos (by simpa using ht)]
      exact .inr ⟨rfl, hfree, State.noConfusion⟩
    · rw [if_neg (by simpa using ht)]
      exact .inl hload
  · rw [if_neg hempty, Cmd.bind_ok (Cmd.modify_apply _ _)]
    exact receivePiece_passed env x (s := Session.setCxt _ _) ho hf₁ hst₁

theorem receiveLoop_passed (env : Env) : ∀ n, Cmd.Triple Session.Loading (receiveLoop env n)
    (fun _ s => s.Loading ∨ s.Resting) (fun _ => Session.Holding)
  | 0 => Cmd.Triple.pure fun _ hl => .inl hl
  | n + 1 => by
    refine Cmd.Triple.bind (receivePass_passed env) fun go => ?_
    rcases go with _ | _
    · exact Cmd.Triple.pure fun _ h => h.imp id And.right
    · exact (receiveLoop_passed env n).weaken (fun _ h => h.resolve_right fun hr => by cases hr.1) (fun _ _ h => h)
        fun _ _ h => h

/-! ### The worker -/

/-- A session with an image open. -/
structure Session.Receiving (s : Session) : Prop where
  holding : s.Holding
  isFirst : s.cxt.isFirst = false
  length : s.cxt.imageWrtLength ≠ 0
  state : s.cxt.state ∈ [State.receiveData, .processImage, .resumeServer]

/-- Between two passes a handle is taken only while an image is open. -/
def Session.Tidy (s : Session) : Prop := s.Quiet ∨ s.Receiving

theorem Session.Tidy.holding {s : Session} (h : s.Tidy) : s.Holding := h.elim (fun h => h.1.holding) fun h => h.holding

theorem Session.Tidy.free {s : Session} (h : s.Tidy)
    (hst : s.cxt.state ∉ [State.receiveData, .processImage, .resumeServer]) : s.Free :=
  h.elim (fun h => h.1) fun h => absurd h.state hst

theorem processImage_tidy (env : Env) {s : Session} (h : s.Tidy) (hst : s.cxt.state = .processImage) :
    Cmd.Ends (fun _ => Session.Tidy) (fun _ => Session.Holding) (processImage env s) := by
  have hl : s.Loading := by
    rcases h with h | h
    · exact ⟨h.1.holding, fun _ => h.1, h.2 hst, hst⟩
    · exact ⟨h.holding, fun h0 => absurd h0 h.length, h.isFirst, hst⟩
  have hend := receiveLoop_passed env (s.cxt.buffer.length + s.cxt.totalImages + 2) s hl
  rw [processImage, Cmd.bind_apply, fwUpgradeProcessReceiveImage]
  rcases hr : receiveLoop env (s.cxt.buffer.length + s.cxt.totalImages + 2) s with ⟨e | u, s'⟩ <;> rw [hr] at hend
  · exact hend
  simp only [Cmd.modify_apply]
  rcases hend with h' | h'
  · rw [if_pos h'.state]
    by_cases h0 : s'.cxt.imageWrtLength = 0
    · exact .inl ⟨h'.closed h0, State.noConfusion⟩
    · exact .inr ⟨h'.holding, h'.isFirst, h0, by simp [Session.setState, Session.setCxt]⟩
  · rw [if_neg h'.2]
    exact .inl h'.quiet

theorem receiveData_tidy {s : Session} (h : s.Tidy) :
    Cmd.Ends (fun _ => Session.Tidy) (fun _ => Session.Holding) (receiveData s) := by
  rw [receiveData]
  split
  · exact h
  · exact h.holding
  simp only
  split
  · exact h.imp (fun h => ⟨h.1, h.2⟩) fun h => ⟨h.holding, h.isFirst, h.length, h.state⟩
  rcases h with h | h
  · refine .inl ⟨h.1, ?_⟩
    show (if s.cxt.isFirst = true then State.processConfigFile else State.processImage) = _ → s.cxt.isFirst = _
    cases s.cxt.isFirst with
    | true => simp
    | false => simp
  · refine .inr ⟨h.holding, h.isFirst, h.length, ?_⟩
    show (if s.cxt.isFirst = true then State.processConfigFile else State.processImage) ∈ _
    simp [h.isFirst]

theorem resumeServer_tidy {s : Session} (h : s.Tidy) :
    Cmd.Ends (fun _ => Session.Tidy) (fun _ => Session.Holding) (resumeServer s) := by
  have hconnect : ∀ script : Script, (({ s with script } : Session).setState .receiveData).Tidy := by
    intro script
    rcases h with h | h
    · exact .inl ⟨h.1, State.noConfusion⟩
    · exact .inr ⟨h.holding, h.isFirst, h.length, by simp [Session.setState, Session.setCxt]⟩
  rw [resumeServer, Cmd.bind_apply, connect]
  cases hc : s.script.connects with
  | nil => exact hconnect s.script
  | cons b cs =>
    cases b with
    | false => exact h.holding
    | true => exact hconnect { s.script with connects := cs }

/-- A FWD has an entry for the image. -/
def HasEntry (f : Fwd) (id : ℕ) : Prop := ∃ e ∈ f.imageEntries, e.imageId = id

instance (f : Fwd) (id : ℕ) : Decidable (HasEntry f id) := inferInstanceAs (Decidable (∃ e ∈ _, _))

theorem hasEntry_of_findEntry {f : Fwd} {id i : ℕ} {e : ImageEntry} (h : findEntry f id = some (i, e)) : HasEntry f id := by
  obtain ⟨hid, hi⟩ := findEntry_id h
  exact ⟨e, List.mem_of_getElem? hi, hid⟩

/-- A session is resumed with an image open, or with one that the trial FWD does not have yet. -/
def Session.Reopens (env : Env) (s : Session) : Prop :=
  s.cxt.isFirst = false ∧ s.cxt.imageWrtLength ≠ 0 ∨
    ¬HasEntry (s.fu.dev.mem.fwd s.cxt.trialFwdIdx) (s.cxt.hdrAt env s.cxt.imageIndex).imageId

instance (env : Env) (s : Session) : Decidable (s.Reopens env) := inferInstanceAs (Decidable (_ ∨ _))

theorem resumeService_tidy (env : Env) {s : Session} (hs : s.Free) (hr : s.Reopens env) :
    Cmd.Ends (fun _ => Session.Tidy) (fun _ => Session.Holding) (resumeService env s) := by
  rw [resumeService, Cmd.bind_ok (Cmd.gets_apply _ _), Cmd.bind_ok (Cmd.gets_apply _ _)]
  have hopen := openPartition_holding s.cxt.trialFwdIdx (s.cxt.hdrAt env s.cxt.imageIndex).imageId .flashImageNotFound s hs
  rcases openPartition_cases s.cxt.trialFwdIdx (s.cxt.hdrAt env s.cxt.imageIndex).imageId .flashImageNotFound s with
    heq | ⟨h, i, en, -, -, -, hfe, heq⟩
  · rw [Cmd.bind_error heq]
    exact hs.holding
  obtain ⟨hf, hlen⟩ := hr.resolve_right (not_not.mpr (hasEntry_of_findEntry hfe))
  rw [heq] at hopen
  rw [Cmd.bind_ok heq, Cmd.bind_ok (Cmd.gets_apply _ _), Cmd.bind_ok (Cmd.gets_apply _ _)]
  generalize hs₁ : ({ s with fu := _, cxt := _ } : Session) = s₁ at hopen
  have hf₁ : s₁.cxt.isFirst = false := by
    rw [← hs₁]
    exact hf
  have hlen₁ : s₁.cxt.imageWrtLength ≠ 0 := by
    rw [← hs₁]
    exact hlen
  have hrh : ∀ n m, (onFu (rehash n m 0 m []) s₁).2 = s₁ := by
    intro n m
    simp only [onFu, Cmd.zoom, rehash_state]
  rw [Cmd.bind_apply, Cmd.attempt, hrh]
  generalize (onFu (rehash _ _ 0 _ []) s₁).1 = r
  show Cmd.Ends _ _ ((Cmd.modify _ >>= _) s₁)
  rw [Cmd.bind_ok (Cmd.modify_apply _ _)]
  cases r with
  | error e => exact hopen
  | ok b => exact .inr ⟨hopen, hf₁, hlen₁, by simp [Session.setState, Session.setCxt]⟩

theorem sessionSwitch_tidy (env : Env) {s : Session} (h : s.Tidy)
    (hr : s.cxt.state = .resumeService → s.Reopens env) :
    Cmd.Ends (fun _ => Session.Tidy) (fun _ => Session.Holding) (sessionSwitch env s) := by
  have hgo : ∀ {c : Cmd Session FuStatus Unit}, Cmd.Ends (fun _ => Session.Tidy) (fun _ => Session.Holding) (c s) →
      Cmd.Ends (fun _ => Session.Tidy) (fun _ => Session.Holding)
        ((c >>= fun _ => pure true : Cmd Session FuStatus Bool) s) := by
    intro c hc
    rcases hcs : c s with ⟨e | u, s'⟩ <;> rw [hcs] at hc
    · rw [Cmd.bind_error hcs]
      exact hc
    · rw [Cmd.bind_ok hcs]
      exact hc
  have hrests : ∀ {c : Cmd Session FuStatus Unit},
      Cmd.Ends (fun _ => Session.Resting) (fun _ => Session.Holding) (c s) →
      Cmd.Ends (fun _ => Session.Tidy) (fun _ => Session.Holding)
        ((c >>= fun _ => pure true : Cmd Session FuStatus Bool) s) := by
    intro c hc
    refine hgo ?_
    rcases hcs : c s with ⟨e | u, s'⟩ <;> rw [hcs] at hc
    · exact hc
    · exact .inl (Session.Resting.quiet hc)
  have hfree := h.free
  rw [sessionSwitch]
  cases hs : s.cxt.state <;> rw [hs] at hfree <;> simp only
  case notStart => exact hrests (setState_rests (by decide) s (hfree (by decide)))
  case getTrialInfo => exact hrests (getTrialInfo_rests env s (hfree (by decide)))
  case eraseFwd => exact hrests (eraseFwd_rests env s (hfree (by decide)))
  case eraseFlash => exact h
  case eraseSecondFs => exact hrests (eraseSecondFs_rests s (hfree (by decide)))
  case prepareFs => exact hrests (prepareFs_rests env s (hfree (by decide)))
  case eraseImage => exact h
  case prepareConnect => exact hrests (prepareConnect_rests env (hfree (by decide)) hs)
  case connectServer => exact hrests (connectServer_rests s (hfree (by decide)))
  case resumeService => exact hgo (resumeService_tidy env (hfree (by decide)) (hr hs))
  case resumeServer => exact hgo (resumeServer_tidy h)
  case receiveData => exact receiveData_tidy h
  case disconnectServer => exact hrests (setState_rests (by decide) s (hfree (by decide)))
  case processConfigFile =>
    refine hgo ?_
    have hq := processConfigFile_quiet env (hfree (by decide)) hs
    rcases hcs : fwUpgradeProcessConfigFile env s with ⟨e | u, s'⟩ <;> rw [hcs] at hq
    · exact hq
    · exact .inl hq
  case processImage => exact hgo (processImage_tidy env h hs)
  case duplicateImages => exact hrests (duplicateImages_rests env s (hfree (by decide)))
  case duplicateFs => exact hrests (duplicateFs_rests s (hfree (by decide)))
  case finish => exact h

end Qcc730.Upgrade
