import Qcc730.Lib.Reach
import Qcc730.Upgrade.Session

/-! Threads around one session.

    The worker of a session is the thread inside `fw_upgrade` or `fw_upgrade_session_resume`; other threads
    cancel, suspend and resume. All of them share the session context and the array of image headers, which
    `fw_upgrade_session_fin` releases. What a pass of the worker does to the context does not matter here, only
    whether it allocates the array and whether it is the last. The ghost fields count the sessions and, for
    each, how often its context and its array were allocated and released. -/

namespace Qcc730.Upgrade
open Lib

/-- Where a worker is. -/
inductive Place where
  /-- before the test of the loop of `fw_upgrade_session_process` -/
  | loop
  /-- in the switch -/
  | switch
  /-- before the first test of `fw_upgrade_session_finalize` -/
  | finalize
  /-- before its last test, of a suspended session -/
  | ending
  deriving DecidableEq, Repr

/-- A thread inside `fw_upgrade_session_process` or `fw_upgrade_session_finalize`, and the session it works on. -/
structure Worker where
  place : Place
  session : ℕ
  deriving DecidableEq, Repr

/-- `n` threads. -/
structure Threads (n : ℕ) where
  /-- `fw_upgrade_sess_cxt`: `none` is NULL, otherwise the session status -/
  cxt : Option SessionStatus
  /-- `fw_upgrade_image_hdr` is not NULL -/
  imageHdr : Bool
  worker : Fin n → Option Worker
  /-- how many sessions were begun -/
  session : ℕ
  cxtFrees : ℕ → ℕ
  hdrAllocs : ℕ → ℕ
  hdrFrees : ℕ → ℕ

/-- What a pass of the worker does, as far as it matters here. -/
structure Pass where
  /-- the header is complete: the array is allocated -/
  alloc : Bool
  /-- the loop ends, or is not entered for want of a buffer -/
  last : Bool
  /-- the session ended well and `FW_UPGRADE_FLAG_AUTO_REBOOT` is set -/
  reboot : Bool
  deriving DecidableEq, Repr

/-- How `fw_upgrade_session_init` ends: well, with an error before the context is allocated, or after. -/
inductive Init where
  | ok
  | noContext
  | undone
  deriving DecidableEq, Repr

/-- What a thread does next. -/
inductive Act where
  | fwUpgrade (init : Init)
  | work (pass : Pass)
  | cancel
  | suspend
  | resume (initOk : Bool)
  deriving DecidableEq, Repr

namespace Threads

variable {n : ℕ}

/-- Nothing has happened. -/
def init (n : ℕ) : Threads n where
  cxt := none
  imageHdr := false
  worker := fun _ => none
  session := 0
  cxtFrees := fun _ => 0
  hdrAllocs := fun _ => 0
  hdrFrees := fun _ => 0

def setWorker (s : Threads n) (i : Fin n) (w : Option Worker) : Threads n :=
  { s with worker := Function.update s.worker i w }

@[simp] theorem setWorker_self (s : Threads n) (i : Fin n) (w : Option Worker) : (s.setWorker i w).worker i = w :=
  Function.update_self _ _ _

theorem setWorker_other {s : Threads n} {i j : Fin n} (h : j ≠ i) (w : Option Worker) :
    (s.setWorker i w).worker j = s.worker j := Function.update_of_ne h _ _

/-- Count one more for the session at hand. -/
def count (s : Threads n) (f : ℕ → ℕ) : ℕ → ℕ := Function.update f s.session (f s.session + 1)

/-- `fw_upgrade_session_fin`. -/
def fwUpgradeSessionFin (s : Threads n) : Threads n :=
  { s with
    cxt := none
    imageHdr := false
    cxtFrees := if s.cxt = none then s.cxtFrees else s.count s.cxtFrees
    hdrFrees := if s.imageHdr then s.count s.hdrFrees else s.hdrFrees }

/-- A context is allocated and set up. -/
def begin (s : Threads n) : Threads n := { s with cxt := some .running, session := s.session + 1 }

/-- `fw_upgrade`, up to the loop. -/
def fwUpgrade (s : Threads n) (i : Fin n) (init : Init) : Threads n :=
  if s.worker i ≠ none ∨ s.cxt ≠ none then s
  else match init with
    | .ok => s.begin.setWorker i (some ⟨.loop, s.session + 1⟩)
    | .noContext => s.fwUpgradeSessionFin
    | .undone => s.begin.fwUpgradeSessionFin

/-- `fw_upgrade_session_cancel`. -/
def fwUpgradeSessionCancel (s : Threads n) : Threads n :=
  match s.cxt with
  | none => s
  | some .running => { s with cxt := some .cancel }
  | some _ => s.fwUpgradeSessionFin

/-- `fw_upgrade_session_suspend`. -/
def fwUpgradeSessionSuspend (s : Threads n) : Threads n :=
  if s.cxt = some .running then { s with cxt := some .suspend } else s

/-- `fw_upgrade_session_resume`, up to the loop, or up to `fw_upgrade_session_finalize` if `fw_upgrade_init`
    fails. -/
def fwUpgradeSessionResume (s : Threads n) (i : Fin n) (initOk : Bool) : Threads n :=
  if s.worker i ≠ none ∨ s.cxt ≠ some .suspend then s
  else if initOk then { s with cxt := some .running }.setWorker i (some ⟨.loop, s.session⟩)
  else { s with cxt := some .notStart }.setWorker i (some ⟨.finalize, s.session⟩)

/-- `fw_upgrade_process_config_file` allocates the array, whether one is there or not. A header that is refused behind
    the allocation leaves the array, and `is_first` set, so that a session that is resumed then comes here again. -/
def allocHdr (s : Threads n) : Threads n := { s with imageHdr := true, hdrAllocs := s.count s.hdrAllocs }

/-- The next step of the worker `i`. -/
def work (s : Threads n) (i : Fin n) (pass : Pass) : Threads n :=
  match s.worker i with
  | none => s
  | some ⟨.loop, k⟩ => s.setWorker i (some ⟨if s.cxt = some .running ∧ pass.last = false then .switch else .finalize, k⟩)
  | some ⟨.switch, k⟩ =>
    (if pass.alloc then s.allocHdr else s).setWorker i (some ⟨if pass.last then .finalize else .loop, k⟩)
  | some ⟨.finalize, k⟩ =>
    if s.cxt = none then s.setWorker i none
    else if pass.reboot then { s.fwUpgradeSessionFin with worker := fun _ => none }
    else s.setWorker i (some ⟨.ending, k⟩)
  | some ⟨.ending, _⟩ =>
    if s.cxt = some .suspend then s.setWorker i none else s.fwUpgradeSessionFin.setWorker i none

/-- Thread `i` does its next step or makes its next call. -/
def act (s : Threads n) (i : Fin n) : Act → Threads n
  | .fwUpgrade init => s.fwUpgrade i init
  | .work pass => s.work i pass
  | .cancel => s.fwUpgradeSessionCancel
  | .suspend => s.fwUpgradeSessionSuspend
  | .resume initOk => s.fwUpgradeSessionResume i initOk

/-- The condition: a cancelled or suspended session is neither cancelled nor resumed before its worker has left, and
    no pass allocates the array while there is one. -/
def Calm (s : Threads n) (i : Fin n) : Act → Prop
  | .cancel => s.cxt ≠ none → s.cxt ≠ some .running → ∀ j, s.worker j = none
  | .resume _ => s.cxt = some .suspend → ∀ j, s.worker j = none
  | .work pass => ∀ k, s.worker i = some ⟨.switch, k⟩ → pass.alloc = true → s.imageHdr = false
  | _ => True

/-- A step that meets the condition. -/
def Step (s s' : Threads n) : Prop := ∃ i a, s.Calm i a ∧ s' = s.act i a

/-- Session `k` is over: its context is gone. -/
def Over (s : Threads n) (k : ℕ) : Prop := 1 ≤ k ∧ k ≤ s.session ∧ (k = s.session → s.cxt = none)

instance (s : Threads n) (k : ℕ) : Decidable (s.Over k) := inferInstanceAs (Decidable (_ ∧ _ ∧ _))

/-- The context is there while a worker is inside, and releases are counted right. -/
structure Held (s : Threads n) : Prop where
  one : ∀ i j w w', s.worker i = some w → s.worker j = some w' → i = j
  own : ∀ i w, s.worker i = some w → w.session = s.session ∧ s.cxt ≠ none
  hdr : s.imageHdr = true → s.cxt ≠ none
  cur : s.cxt ≠ none → 1 ≤ s.session ∧ s.cxtFrees s.session = 0 ∧ s.hdrFrees s.session = 0 ∧
    s.hdrAllocs s.session = if s.imageHdr then 1 else 0
  past : ∀ k, s.Over k → s.cxtFrees k = 1 ∧ s.hdrFrees k = s.hdrAllocs k ∧ s.hdrAllocs k ≤ 1
  next : ∀ k, s.session < k → s.cxtFrees k = 0 ∧ s.hdrFrees k = 0 ∧ s.hdrAllocs k = 0

theorem held_init (n : ℕ) : (init n).Held := by
  refine ⟨?_, ?_, ?_, ?_, ?_, ?_⟩
  · intro i j w w' h
    cases h
  · intro i w h
    cases h
  · intro h
    cases h
  · intro h
    exact absurd rfl h
  · rintro k ⟨h₁, h₂, -⟩
    simp only [init] at h₂
    omega
  · intro k _
    exact ⟨rfl, rfl, rfl⟩

theorem Held.setStatus {s : Threads n} (h : s.Held) (hc : s.cxt ≠ none) (st : SessionStatus) :
    { s with cxt := some st }.Held := by
  refine ⟨h.one, fun i w hw => ⟨(h.own i w hw).1, by simp⟩, fun _ => by simp, fun _ => h.cur hc, ?_, h.next⟩
  rintro k ⟨h₁, h₂, h₃⟩
  exact h.past k ⟨h₁, h₂, fun hk => absurd (h₃ hk) (by simp)⟩

/-- A worker goes on. -/
theorem Held.goOn {s : Threads n} (h : s.Held) {i : Fin n} {w w' : Worker} (hw : s.worker i = some w)
    (hs : w'.session = w.session) : (s.setWorker i (some w')).Held := by
  have hone : ∀ j v, (s.setWorker i (some w')).worker j = some v → j = i := by
    intro j v hv
    by_contra hne
    rw [setWorker_other hne] at hv
    exact hne (h.one j i v w hv hw)
  refine ⟨?_, ?_, h.hdr, h.cur, h.past, h.next⟩
  · intro j k v v' hj hk
    rw [hone j v hj, hone k v' hk]
  · intro j v hv
    have hj := hone j v hv
    subst hj
    rw [setWorker_self, Option.some.injEq] at hv
    rw [← hv, hs]
    exact h.own j w hw

/-- A worker leaves. -/
theorem Held.leave {s : Threads n} (h : s.Held) (i : Fin n) : (s.setWorker i none).Held := by
  have hsub : ∀ j v, (s.setWorker i none).worker j = some v → s.worker j = some v := by
    intro j v hv
    by_cases hj : j = i
    · rw [hj, setWorker_self] at hv
      cases hv
    · rw [setWorker_other hj] at hv
      exact hv
  exact ⟨fun j k v v' hj hk => h.one j k v v' (hsub j v hj) (hsub k v' hk), fun j v hv => h.own j v (hsub j v hv),
    h.hdr, h.cur, h.past, h.next⟩

/-- A thread becomes the worker of a session that has none. -/
theorem Held.enter {s : Threads n} (h : s.Held) (hn : ∀ j, s.worker j = none) (hc : s.cxt ≠ none) (i : Fin n)
    (p : Place) : (s.setWorker i (some ⟨p, s.session⟩)).Held := by
  have hone : ∀ j v, (s.setWorker i (some ⟨p, s.session⟩)).worker j = some v → j = i ∧ v.session = s.session := by
    intro j v hv
    by_cases hj : j = i
    · rw [hj, setWorker_self, Option.some.injEq] at hv
      exact ⟨hj, by rw [← hv]⟩
    · rw [setWorker_other hj, hn j] at hv
      cases hv
  refine ⟨?_, fun j v hv => ⟨(hone j v hv).2, hc⟩, h.hdr, h.cur, h.past, h.next⟩
  intro j k v v' hj hk
  rw [(hone j v hj).1, (hone k v' hk).1]

/-- The context is released once every worker has left. -/
theorem Held.fin {s : Threads n} (h : s.Held) {f : Fin n → Option Worker} (hf : ∀ j, f j = none) :
    { s.fwUpgradeSessionFin with worker := f }.Held := by
  have hnone : ∀ j w, f j ≠ some w := fun j w hw => by
    rw [hf j] at hw
    cases hw
  by_cases hc : s.cxt = none
  · have hh : s.imageHdr = false := by
      by_contra hh
      exact h.hdr (by simpa using hh) hc
    refine ⟨fun i j w w' hw => absurd hw (hnone i w), fun i w hw => absurd hw (hnone i w), fun hi => (by cases hi),
      fun hi => absurd rfl hi, ?_, ?_⟩
    · rintro k ⟨h₁, h₂, -⟩
      simp only [fwUpgradeSessionFin, if_pos hc, hh]
      exact h.past k ⟨h₁, h₂, fun _ => hc⟩
    · intro k hk
      simp only [fwUpgradeSessionFin, if_pos hc, hh]
      exact h.next k hk
  · obtain ⟨hpos, hcf, hhf, hha⟩ := h.cur hc
    refine ⟨fun i j w w' hw => absurd hw (hnone i w), fun i w hw => absurd hw (hnone i w), fun hi => (by cases hi),
      fun hi => absurd rfl hi, ?_, ?_⟩
    · rintro k ⟨h₁, h₂, -⟩
      simp only [fwUpgradeSessionFin, if_neg hc]
      by_cases hk : k = s.session
      · subst hk
        simp only [count, Function.update_self, hcf]
        cases hi : s.imageHdr <;> simp [hi] at hha ⊢ <;> omega
      · have hold := h.past k ⟨h₁, h₂, fun he => absurd he hk⟩
        refine ⟨?_, ?_, hold.2.2⟩
        · rw [count, Function.update_of_ne hk]
          exact hold.1
        · split
          · rw [count, Function.update_of_ne hk]
            exact hold.2.1
          · exact hold.2.1
    · intro k hk
      have hne : k ≠ s.session := by
        have : s.session < k := hk
        omega
      have hold := h.next k hk
      simp only [fwUpgradeSessionFin, if_neg hc]
      refine ⟨?_, ?_, hold.2.2⟩
      · rw [count, Function.update_of_ne hne]
        exact hold.1
      · split
        · rw [count, Function.update_of_ne hne]
          exact hold.2.1
        · exact hold.2.1

theorem Held.begin {s : Threads n} (h : s.Held) (hc : s.cxt = none) : s.begin.Held := by
  have hnone : ∀ j w, s.worker j ≠ some w := fun j w hw => (h.own j w hw).2 hc
  have hh : s.imageHdr = false := by
    by_contra hh
    exact h.hdr (by simpa using hh) hc
  obtain ⟨h₁, h₂, h₃⟩ := h.next (s.session + 1) (Nat.lt_succ_self _)
  refine ⟨fun i j w w' hw => absurd hw (hnone i w), fun i w hw => absurd hw (hnone i w), fun _ => by simp [Threads.begin],
    fun _ => ⟨Nat.succ_pos _, h₁, h₂, ?_⟩, ?_, ?_⟩
  · simp only [Threads.begin, hh]
    exact h₃
  · rintro k ⟨hk₁, hk₂, hk₃⟩
    have hk : k ≠ s.session + 1 := fun he => absurd (hk₃ he) (by simp [Threads.begin])
    have hle : k ≤ s.session + 1 := hk₂
    exact h.past k ⟨hk₁, by omega, fun _ => hc⟩
  · intro k hk
    have hlt : s.session + 1 < k := hk
    exact h.next k (by omega)

theorem Held.allocHdr {s : Threads n} (h : s.Held) (hc : s.cxt ≠ none) (hi : s.imageHdr = false) : s.allocHdr.Held := by
  obtain ⟨hpos, hcf, hhf, hha⟩ := h.cur hc
  rw [hi] at hha
  refine ⟨h.one, h.own, fun _ => hc, fun _ => ⟨hpos, hcf, hhf, ?_⟩, ?_, ?_⟩
  · show s.count s.hdrAllocs s.session = 1
    rw [count, Function.update_self, hha]
    rfl
  · rintro k ⟨h₁, h₂, h₃⟩
    have hk : k ≠ s.session := fun he => hc (h₃ he)
    show s.cxtFrees k = 1 ∧ s.hdrFrees k = s.count s.hdrAllocs k ∧ s.count s.hdrAllocs k ≤ 1
    rw [count, Function.update_of_ne hk]
    exact h.past k ⟨h₁, h₂, fun he => absurd he hk⟩
  · intro k hk
    have hlt : s.session < k := hk
    show s.cxtFrees k = 0 ∧ s.hdrFrees k = 0 ∧ s.count s.hdrAllocs k = 0
    rw [count, Function.update_of_ne (by omega)]
    exact h.next k hk

/-- A worker's next step. -/
theorem Held.work {s : Threads n} (h : s.Held) (i : Fin n) {pass : Pass} (hok : s.Calm i (.work pass)) :
    (s.work i pass).Held := by
  rw [Threads.work]
  rcases hw : s.worker i with _ | ⟨p, k⟩
  · exact h
  have hc := (h.own i _ hw).2
  cases p with
  | loop => exact h.goOn hw rfl
  | switch =>
    simp only
    split
    · rename_i halloc
      exact (h.allocHdr hc (hok k hw halloc)).goOn (w := ⟨.switch, k⟩) hw rfl
    · exact h.goOn hw rfl
  | finalize =>
    simp only [if_neg hc]
    split
    · exact h.fin fun _ => rfl
    · exact h.goOn hw rfl
  | ending =>
    simp only
    split
    · exact h.leave i
    · -- the worker is the only one, so nobody is inside when it has released the context
      refine h.fin (f := Function.update s.worker i none) fun j => ?_
      by_cases hj : j = i
      · rw [hj, Function.update_self]
      · rw [Function.update_of_ne hj]
        by_contra hn
        obtain ⟨w, hw'⟩ := Option.ne_none_iff_exists'.mp hn
        exact hj (h.one j i w _ hw' hw)

theorem Held.act {s : Threads n} (h : s.Held) (i : Fin n) {a : Act} (hok : s.Calm i a) : (s.act i a).Held := by
  cases a with
  | fwUpgrade init =>
    show (s.fwUpgrade i init).Held
    rw [Threads.fwUpgrade.eq_def]
    split
    · exact h
    rename_i hn
    rw [not_or, not_not, not_not] at hn
    have hall : ∀ j, s.worker j = none := by
      intro j
      by_contra hj
      obtain ⟨w, hw⟩ := Option.ne_none_iff_exists'.mp hj
      exact (h.own j w hw).2 hn.2
    cases init with
    | ok => exact (h.begin hn.2).enter hall (by simp [Threads.begin]) i .loop
    | noContext => exact h.fin hall
    | undone => exact (h.begin hn.2).fin hall
  | work pass => exact h.work i hok
  | cancel =>
    show s.fwUpgradeSessionCancel.Held
    rw [fwUpgradeSessionCancel]
    split
    · exact h
    · rename_i hc
      exact h.setStatus (by rw [hc]; simp) .cancel
    · rename_i st hne hc
      refine h.fin (hok (by rw [hc]; simp) ?_)
      rw [hc]
      intro he
      exact hne (Option.some.inj he)
  | suspend =>
    show s.fwUpgradeSessionSuspend.Held
    rw [fwUpgradeSessionSuspend]
    split
    · rename_i hc
      exact h.setStatus (by rw [hc]; simp) .suspend
    · exact h
  | resume initOk =>
    show (s.fwUpgradeSessionResume i initOk).Held
    rw [fwUpgradeSessionResume]
    split
    · exact h
    rename_i hn
    rw [not_or, not_not, not_not] at hn
    have hc : s.cxt ≠ none := by
      rw [hn.2]
      simp
    split
    · exact (h.setStatus hc .running).enter (hok hn.2) (by simp) i .loop
    · exact (h.setStatus hc .notStart).enter (hok hn.2) (by simp) i .finalize

end Threads

/-- While a thread is inside `fw_upgrade_session_process` or `fw_upgrade_session_finalize`, the context and the
    image headers of its session are not released; once a session is over, its context has been released once
    and its image headers as often as they were allocated, at most once. -/
theorem session_released_once (n : ℕ) (s : Threads n) (h : Reach Threads.Step (Threads.init n) s) :
    (∀ i w, s.worker i = some w → w.session = s.session ∧ s.cxt ≠ none ∧ s.cxtFrees w.session = 0 ∧
      s.hdrFrees w.session = 0) ∧
    ∀ k, s.Over k → s.cxtFrees k = 1 ∧ s.hdrFrees k = s.hdrAllocs k ∧ s.hdrAllocs k ≤ 1 := by
  have hh : s.Held := by
    refine h.inv (Threads.held_init n) ?_
    rintro x y ⟨i, a, hok, rfl⟩ hx
    exact hx.act i hok
  refine ⟨?_, hh.past⟩
  intro i w hw
  obtain ⟨hs, hc⟩ := hh.own i w hw
  obtain ⟨-, hcf, hhf, -⟩ := hh.cur hc
  rw [hs]
  exact ⟨rfl, hc, hcf, hhf⟩

/-- A worker that receives a header and goes back to its loop, and one that only goes on. -/
def Pass.header : Pass := ⟨true, false, false⟩
def Pass.plain : Pass := ⟨false, false, false⟩

/-- A session that gets its header, is suspended, left by its worker and cancelled. -/
def suspendedThenCancelled : Threads 2 :=
  [((0 : Fin 2), Act.fwUpgrade .ok), (0, .work .plain), (0, .work .header), (1, .suspend), (0, .work .plain),
    (0, .work .plain), (0, .work .plain), (1, .cancel)].foldl (fun s x => s.act x.1 x.2) (Threads.init 2)

/-- It is over, and its context and its image headers were released once. -/
theorem session_released_once_suspended :
    suspendedThenCancelled.cxtFrees 1 = 1 ∧ suspendedThenCancelled.hdrFrees 1 = 1 := by
  have hreach : Reach Threads.Step (Threads.init 2) suspendedThenCancelled := by
    refine .tail (.tail (.tail (.tail (.tail (.tail (.tail (.single ⟨0, .fwUpgrade .ok, trivial, rfl⟩)
      ⟨0, .work .plain, ?_, rfl⟩) ⟨0, .work .header, ?_, rfl⟩) ⟨1, .suspend, trivial, rfl⟩) ⟨0, .work .plain, ?_, rfl⟩)
      ⟨0, .work .plain, ?_, rfl⟩) ⟨0, .work .plain, ?_, rfl⟩) ⟨1, .cancel, fun _ _ => by decide, rfl⟩
    all_goals
      intro k hw ha
      first | rfl | cases ha
  obtain ⟨hcxt, hhdr, -⟩ := (session_released_once 2 _ hreach).2 1 (by decide)
  exact ⟨hcxt, hhdr.trans rfl⟩

/-- The worker is in its switch when the session is cancelled twice. -/
def cancelledTwice : Threads 2 :=
  [((0 : Fin 2), Act.fwUpgrade .ok), (0, .work .plain), (1, .cancel), (1, .cancel)].foldl (fun s x => s.act x.1 x.2)
    (Threads.init 2)

/-- A header is refused behind the allocation; the session is suspended before its worker leaves, resumed, and receives
    a header again. -/
def refusedThenResumed : Threads 2 :=
  [((0 : Fin 2), Act.fwUpgrade .ok), (0, .work .plain), (0, .work ⟨true, true, false⟩), (1, .suspend),
    (0, .work .plain), (0, .work .plain), (0, .resume true), (0, .work .plain), (0, .work ⟨true, true, false⟩),
    (0, .work .plain), (0, .work .plain)].foldl (fun s x => s.act x.1 x.2) (Threads.init 2)

/-- The second call releases the context under the worker; and of two arrays one is released. -/
theorem second_cancel_releases :
    (cancelledTwice.worker 0 = some ⟨.switch, 1⟩ ∧ cancelledTwice.cxt = none ∧ cancelledTwice.cxtFrees 1 = 1) ∧
    refusedThenResumed.Over 1 ∧ refusedThenResumed.hdrAllocs 1 = 2 ∧ refusedThenResumed.hdrFrees 1 = 1 := by
  decide

end Qcc730.Upgrade
