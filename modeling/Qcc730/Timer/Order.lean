import Qcc730.Timer.Timers
import Qcc730.Lib.Reach

/-! The list of the active timers.

    Each call takes a node out of the list or puts one in, and sets its state on its own. A sleep changes the expiry of
    all nodes in place. -/

namespace Qcc730.Timer

open Lib

/-- The handle of a node leads back to it. -/
theorem timerHandleToIndex_handle {i : ℕ} (hi : i < maxTimers) : timerHandleToIndex (timerIndexToHandle i) = some i := by
  have : ∀ i < maxTimers, timerHandleToIndex (timerIndexToHandle i) = some i := by decide
  exact this i hi

namespace Timers

variable {s s' : Timers} {L A B : List ℕ} {i : ℕ}

/-! ### Linking -/

/-- The links lead through `L`. -/
structure Chained (s : Timers) (L : List ℕ) : Prop where
  doubly : Doubly s.next s.prev s.first s.last L
  listed : ∀ i, s.list i = true ↔ i ∈ L

theorem Chained.nodup (h : s.Chained L) : L.Nodup := h.doubly.1.nodup

/-- The links lead through `L`, in order of the expiry. -/
structure Linked (s : Timers) (L : List ℕ) : Prop where
  doubly : Doubly s.next s.prev s.first s.last L
  sorted : L.Pairwise fun a b => s.expiry a ≤ s.expiry b
  listed : ∀ i, s.list i = true ↔ i ∈ L

theorem Linked.chained (h : s.Linked L) : s.Chained L := ⟨h.doubly, h.listed⟩

theorem Linked.nodup (h : s.Linked L) : L.Nodup := h.chained.nodup

theorem Linked.congr (h : s.Linked L) (hn : s'.next = s.next) (hp : s'.prev = s.prev) (hf : s'.first = s.first)
    (hl : s'.last = s.last) (hlist : s'.list = s.list) (he : ∀ j ∈ L, s'.expiry j = s.expiry j) : s'.Linked L where
  doubly := by
    rw [hn, hp, hf, hl]
    exact h.doubly
  sorted := h.sorted.imp_of_mem fun {a b} ha hb hab => by rwa [he a ha, he b hb]
  listed := hlist ▸ h.listed

/-- Only links differ. -/
def Relinked (s s' : Timers) : Prop :=
  ∃ next prev first last list,
    s' = { s with next := next, prev := prev, first := first, last := last, list := list }

theorem Chained.timerRemove (h : s.Chained L) :
    (s.timerRemove i).1.Chained (L.erase i) ∧ s.Relinked (s.timerRemove i).1 ∧ ((s.timerRemove i).2 = true ↔ i ∈ L) := by
  rw [Timers.timerRemove]
  by_cases hi : i ∈ L
  · simp only [if_pos ((h.listed i).mpr hi), hi]
    refine ⟨?_, ⟨_, _, _, _, _, rfl⟩, trivial⟩
    obtain ⟨A, B, rfl⟩ := List.append_of_mem hi
    have hnodup := h.nodup
    have hiA : i ∉ A := fun hmem => (List.nodup_append.mp hnodup).2.2 i hmem i List.mem_cons_self rfl
    have herase : (A ++ i :: B).erase i = A ++ B := by
      rw [List.erase_append_right _ hiA, List.erase_cons_head]
    refine ⟨?_, fun j => ?_⟩
    · rw [herase]
      exact h.doubly.remove
    · obtain rfl | hne := eq_or_ne j i
      · simp [hnodup.not_mem_erase]
      · simp only [Function.update_of_ne hne, List.mem_erase_of_ne hne]
        exact h.listed j
  · have hlist : s.list i = false := Bool.eq_false_iff.mpr fun hl => hi ((h.listed i).mp hl)
    simp only [hlist, Bool.false_eq_true, if_false, hi, iff_self, and_true]
    rw [List.erase_of_not_mem hi]
    exact ⟨h, _, _, _, _, _, rfl⟩

theorem Linked.timerRemove (h : s.Linked L) :
    (s.timerRemove i).1.Linked (L.erase i) ∧ s.Relinked (s.timerRemove i).1 ∧ ((s.timerRemove i).2 = true ↔ i ∈ L) := by
  obtain ⟨hc, ⟨next, prev, first, last, list, heq⟩, hresult⟩ := h.chained.timerRemove (i := i)
  refine ⟨⟨hc.doubly, ?_, hc.listed⟩, ⟨next, prev, first, last, list, heq⟩, hresult⟩
  rw [heq]
  exact h.sorted.sublist List.erase_sublist

/-- The head is taken out in the same way. -/
theorem Chained.timerRemoveHead (h : s.Chained (i :: L)) : s.timerRemoveHead i = (s.timerRemove i).1 := by
  have hprev : s.prev i = none := Doubly.prev_eq (A := []) h.doubly
  have hnext : s.next i ≠ some i := by
    rw [Doubly.next_eq (A := []) h.doubly]
    exact fun heq => (List.nodup_cons.mp h.nodup).1 (List.mem_of_mem_head? heq)
  have hself : relink s.prev (s.next i) none i = none := by
    cases hn : s.next i with
    | none => exact hprev
    | some n =>
      have hne : i ≠ n := fun heq => hnext (by rw [hn, heq])
      rw [relink, Function.update_of_ne hne, hprev]
  have hprev' : Function.update (relink s.prev (s.next i) none) i none = relink s.prev (s.next i) none :=
    Function.update_eq_self_iff.mpr hself.symm
  rw [Timers.timerRemoveHead, Timers.timerRemove, if_pos ((h.listed i).mpr List.mem_cons_self), hprev, hprev']
  rfl

/-- A node that is not in the list is cleared. -/
theorem Chained.clear (h : s.Chained L) (hi : i ∉ L) (free : Bool) : (s.clear i free).Chained L where
  doubly := ⟨h.doubly.1.update hi, h.doubly.2.update fun hmem => hi (List.mem_reverse.mp hmem)⟩
  listed j := by
    obtain rfl | hne := eq_or_ne j i
    · simp [Timers.clear, hi]
    · simpa [Timers.clear, hne] using h.listed j

theorem Linked.clear (h : s.Linked L) (hi : i ∉ L) (free : Bool) : (s.clear i free).Linked L where
  doubly := (h.chained.clear hi free).doubly
  sorted := h.sorted.imp_of_mem fun {a b} ha hb hab => by
    have hai : a ≠ i := ne_of_mem_of_not_mem ha hi
    have hbi : b ≠ i := ne_of_mem_of_not_mem hb hi
    simpa [Timers.clear, hai, hbi] using hab
  listed := (h.chained.clear hi free).listed

/-- Where the loop of `timer_insert` stops. -/
theorem insertPoint_eq {e fuel : ℕ} {p : Option ℕ} (hp : Path s.next p L none) (hfuel : L.length ≤ fuel) :
    ∃ A B, L = A ++ B ∧ (∀ a ∈ A, s.expiry a ≤ e) ∧ (∀ b ∈ B.head?, e < s.expiry b) ∧
      s.insertPoint e fuel p = some B.head? := by
  induction L generalizing p fuel with
  | nil =>
    cases hp
    refine ⟨[], [], rfl, by simp, by simp, ?_⟩
    cases fuel <;> rfl
  | cons a L ih =>
    obtain ⟨rfl, hp⟩ := hp
    cases fuel with
    | zero => simp at hfuel
    | succ fuel =>
      rw [insertPoint]
      by_cases ha : s.expiry a ≤ e
      · obtain ⟨A, B, rfl, hA, hB, hpoint⟩ := ih hp (Nat.le_of_succ_le_succ hfuel)
        rw [if_pos ha]
        exact ⟨a :: A, B, rfl, List.forall_mem_cons.mpr ⟨ha, hA⟩, hB, hpoint⟩
      · rw [if_neg ha]
        refine ⟨[], a :: L, rfl, by simp, ?_, rfl⟩
        simpa using ha

/-- A timer that is not in the list is put before the first timer that is later. -/
theorem Chained.timerInsert (h : s.Chained L) (hi : i ∉ L) (hlen : L.length ≤ maxTimers) :
    ∃ s' A B, s.timerInsert i = some s' ∧ s.Relinked s' ∧ L = A ++ B ∧ s'.Chained (A ++ i :: B) ∧
      (∀ a ∈ A, s.expiry a ≤ s.expiry i) ∧ ∀ b ∈ B.head?, s.expiry i < s.expiry b := by
  obtain ⟨A, B, rfl, hA, hB, hpoint⟩ := insertPoint_eq
    (s := { s with list := Function.update s.list i true }) (e := s.expiry i) h.doubly.1 hlen
  have hinsert : s.timerInsert i =
      some ({ s with list := Function.update s.list i true }.timerInsertBetween i A.getLast? B.head?) := by
    rw [Timers.timerInsert]
    simp only [hpoint, Option.map_some]
    cases B with
    | nil =>
      have hlast := h.doubly.last_eq
      rw [List.append_nil] at hlast
      simp only [List.head?_nil, hlast]
    | cons b B => simp only [List.head?_cons, h.doubly.prev_eq]
  refine ⟨_, A, B, hinsert, ⟨_, _, _, _, _, rfl⟩, rfl, ⟨h.doubly.insert hi, fun j => ?_⟩, hA, hB⟩
  change Function.update s.list i true j = true ↔ _
  obtain rfl | hne := eq_or_ne j i
  · simp
  · rw [Function.update_of_ne hne, h.listed j]
    simp [hne]

/-- In a list in order, that is where it belongs. -/
theorem pairwise_insert {f : ℕ → ℕ} (h : (A ++ B).Pairwise fun a b => f a ≤ f b) (hA : ∀ a ∈ A, f a ≤ f i)
    (hB : ∀ b ∈ B.head?, f i < f b) : (A ++ i :: B).Pairwise fun a b => f a ≤ f b := by
  obtain ⟨hAA, hBB, hAB⟩ := List.pairwise_append.mp h
  -- what follows the first later timer is later, too
  have hall : ∀ b ∈ B, f i ≤ f b := by
    cases B with
    | nil => simp
    | cons b B =>
      have hb : f i ≤ f b := le_of_lt (hB b rfl)
      exact List.forall_mem_cons.mpr ⟨hb, fun c hc => le_trans hb ((List.pairwise_cons.mp hBB).1 c hc)⟩
  refine List.pairwise_append.mpr ⟨hAA, List.pairwise_cons.mpr ⟨hall, hBB⟩, fun a ha b hb => ?_⟩
  obtain rfl | hb := List.mem_cons.mp hb
  · exact hA a ha
  · exact hAB a ha b hb

theorem Linked.timerInsert (h : s.Linked L) (hi : i ∉ L) (hlen : L.length ≤ maxTimers) :
    ∃ s' A B, s.timerInsert i = some s' ∧ s.Relinked s' ∧ L = A ++ B ∧ s'.Linked (A ++ i :: B) := by
  obtain ⟨s', A, B, hinsert, ⟨next, prev, first, last, list, rfl⟩, rfl, hc, hA, hB⟩ := h.chained.timerInsert hi hlen
  exact ⟨_, A, B, hinsert, ⟨_, _, _, _, _, rfl⟩, rfl, hc.doubly, pairwise_insert h.sorted hA hB, hc.listed⟩

/-- Every timer of the list gets its new expiry. -/
theorem adjustFrom_eq {adjustTick fuel : ℕ} {p : Option ℕ} (hp : Path s.next p L none) (hfuel : L.length ≤ fuel) :
    adjustFrom adjustTick fuel s p = some { s with
      expiry := fun i => if i ∈ L then newTime s.ticksNow adjustTick (s.durationSclk i) else s.expiry i } := by
  induction L generalizing s p fuel with
  | nil =>
    cases hp
    cases fuel <;> simp [adjustFrom]
  | cons a L ih =>
    have ha : a ∉ L := (List.nodup_cons.mp hp.nodup).1
    obtain ⟨rfl, hp⟩ := hp
    cases fuel with
    | zero => simp at hfuel
    | succ fuel =>
      rw [adjustFrom, ih (s := { s with
        expiry := Function.update s.expiry a (newTime s.ticksNow adjustTick (s.durationSclk a)) }) hp
        (Nat.le_of_succ_le_succ hfuel)]
      congr 2
      funext j
      obtain rfl | hne := eq_or_ne j a
      · simp [ha]
      · simp [hne]

theorem timerUpdateTimerInterrupt_eq (s : Timers) (t : ℕ) :
    ∃ m now, s.timerUpdateTimerInterrupt t = { s with matchValue := m, ticksNow := now } := by
  rw [timerUpdateTimerInterrupt]
  by_cases hskip : ¬ s.doReprogramIsr ∨ s.processing
  · exact ⟨_, _, if_pos hskip⟩
  · rw [if_neg hskip]
    cases hfirst : s.first with
    | none =>
      simp only [timetickGet, hfirst]
      exact ⟨_, _, rfl⟩
    | some f =>
      simp only [timetickGet, hfirst]
      by_cases hmatch : s.expiry f = s.matchValue
      · exact ⟨_, _, if_pos hmatch⟩
      · exact ⟨_, _, if_neg hmatch⟩

theorem timerGetClientTimer_eq_some {timer : ℕ} : s.timerGetClientTimer timer = some i ↔
    timer ≠ 0 ∧ timerHandleToIndex (s.handle timer) = some i ∧ s.free i = false := by
  rw [timerGetClientTimer]
  by_cases h0 : timer = 0
  · simp [h0]
  · rw [if_neg h0]
    cases timerHandleToIndex (s.handle timer) with
    | none => simp
    | some j =>
      have hcond : (if s.free j then none else some j) = some i ↔ j = i ∧ s.free j = false := by
        cases s.free j <;> simp
      simp only [hcond, Option.some.injEq]
      constructor
      · rintro ⟨rfl, hfree⟩
        exact ⟨h0, rfl, hfree⟩
      · rintro ⟨-, rfl, hfree⟩
        exact ⟨rfl, hfree⟩

/-! ### The invariant -/

/-- The active list `L` holds the timers that are set, and a node that is not free has the handle that its owner
    holds. -/
structure Inv (s : Timers) (L : List ℕ) : Prop where
  linked : s.Linked L
  mem : ∀ i, i ∈ L ↔ s.timerState i = .setFlag
  used : ∀ i ∈ L, s.free i = false
  bound : ∀ i, s.free i = false → i < maxTimers
  owned : ∀ i, s.free i = false → s.handle (s.externalTimer i) = timerIndexToHandle i

theorem Inv.init (handle : ℕ → ℕ) : (Timers.init handle).Inv [] where
  linked := ⟨⟨rfl, rfl⟩, .nil, by simp [Timers.init]⟩
  mem := by simp [Timers.init]
  used := by simp
  bound := by simp [Timers.init]
  owned := by simp [Timers.init]

namespace Inv

theorem length_le (h : s.Inv L) : L.length ≤ maxTimers := by
  have := (h.linked.nodup.subperm fun i hi => List.mem_range.mpr (h.bound i (h.used i hi))).length_le
  rwa [List.length_range] at this

/-- The parts of the state that the invariant does not look at. -/
theorem congr (h : s.Inv L) {x : Timers} (hl : x.Linked L) (hs : x.timerState = s.timerState) (hf : x.free = s.free)
    (hh : x.handle = s.handle) (he : x.externalTimer = s.externalTimer) : x.Inv L where
  linked := hl
  mem := hs ▸ h.mem
  used := hf ▸ h.used
  bound := hf ▸ h.bound
  owned := hf ▸ hh ▸ he ▸ h.owned

theorem timerUpdateTimerInterrupt (h : s.Inv L) (t : ℕ) : (s.timerUpdateTimerInterrupt t).Inv L := by
  obtain ⟨m, now, heq⟩ := s.timerUpdateTimerInterrupt_eq t
  rw [heq]
  exact h.congr ⟨h.linked.1, h.linked.2, h.linked.3⟩ rfl rfl rfl rfl

/-- A timer is taken out of the list, and its state is no longer that it is set. -/
theorem removed (h : s.Inv L) {st : TimerState} (hst : st ≠ .setFlag) :
    ((s.timerRemove i).1.setState i st).Inv (L.erase i) := by
  obtain ⟨hl, ⟨next, prev, first, last, list, heq⟩, -⟩ := h.linked.timerRemove (i := i)
  rw [heq] at hl ⊢
  refine ⟨⟨hl.1, hl.2, hl.3⟩, fun j => ?_, fun j hj => h.used j (List.mem_of_mem_erase hj), h.bound, h.owned⟩
  change _ ↔ Function.update s.timerState i st j = .setFlag
  obtain rfl | hne := eq_or_ne j i
  · simp [h.linked.nodup.not_mem_erase, hst]
  · rw [List.mem_erase_of_ne hne, Function.update_of_ne hne]
    exact h.mem j

/-- A timer that is set is put into the list. -/
theorem inserted (hx : s.timerInsert i = some s') (hl : s.Linked L) (hi : i ∉ L)
    (hmem : ∀ j, s.timerState j = .setFlag ↔ j = i ∨ j ∈ L) (hused : ∀ j, j = i ∨ j ∈ L → s.free j = false)
    (hbound : ∀ j, s.free j = false → j < maxTimers)
    (howned : ∀ j, s.free j = false → s.handle (s.externalTimer j) = timerIndexToHandle j) :
    s.Relinked s' ∧ ∃ A B, L = A ++ B ∧ s'.Inv (A ++ i :: B) := by
  have hlen : L.length ≤ maxTimers := by
    have := (hl.nodup.subperm fun j hj => List.mem_range.mpr (hbound j (hused j (.inr hj)))).length_le
    rwa [List.length_range] at this
  obtain ⟨x, A, B, hs', ⟨next, prev, first, last, list, rfl⟩, rfl, hl'⟩ := hl.timerInsert hi hlen
  cases hx.symm.trans hs'
  have hin : ∀ j, j ∈ A ++ i :: B ↔ j = i ∨ j ∈ A ++ B := fun j => by simp [or_left_comm]
  refine ⟨⟨_, _, _, _, _, rfl⟩, A, B, rfl, hl', fun j => ?_, fun j hj => ?_, hbound, howned⟩
  · rw [hin]
    exact (hmem j).symm
  · exact hused j ((hin j).mp hj)

/-! ### Calls of the owners -/

theorem hresTimerDef {timer : ℕ} {timerCb taskInfo : Option ℕ} {e : TimerError} (h : s.Inv L)
    (hnew : ∀ i, s.timerGetClientTimer timer = some i → s.externalTimer i ≠ timer)
    (hr : s.hresTimerDef timer timerCb taskInfo = some (s', e)) : s'.Inv L := by
  rw [Timers.hresTimerDef] at hr
  split at hr
  · cases hr
    exact h
  · split at hr
    · cases hr
      exact h
    · rename_i hvalid
      have htimer : timer ≠ 0 := fun h0 => hvalid (.inl h0)
      -- the variable is written in any case
      obtain ⟨handle, hs, hhandle⟩ : ∃ handle, (if s.handle timer ≠ timerInvalidHandle ∧
          (s.timerGetClientTimer timer).any (s.externalTimer · = timer) then s.setHandle timer timerInvalidHandle
          else s) = { s with handle := handle } ∧ ∀ v ≠ timer, handle v = s.handle v := by
        split
        · exact ⟨_, rfl, fun v hv => Function.update_of_ne hv ..⟩
        · exact ⟨_, rfl, fun _ _ => rfl⟩
      simp only [hs, timerGetNewClientTimer, Option.map_map, Option.map_eq_some_iff] at hr
      obtain ⟨i, hfind, hr⟩ := hr
      have hfree : s.free i = true := List.find?_some hfind
      have hi : i < maxTimers := List.mem_range.mp (List.mem_of_find?_eq_some hfind)
      have hiL : i ∉ L := fun hmem => by simp [h.used i hmem] at hfree
      have hother : ∀ j, s.free j = false → s.externalTimer j ≠ timer := fun j hj heq => by
        refine hnew j (timerGetClientTimer_eq_some.mpr ⟨htimer, ?_, hj⟩) heq
        rw [← heq, h.owned j hj]
        exact timerHandleToIndex_handle (h.bound j hj)
      cases hr
      have hl := h.linked.clear hiL false
      refine ⟨hl.congr rfl rfl rfl rfl rfl fun _ _ => rfl, fun j => ?_, fun j hj => ?_, fun j hj => ?_, fun j hj => ?_⟩
      · obtain rfl | hne := eq_or_ne j i
        · simp [setState, hiL]
        · simpa [setState, Timers.clear, setHandle, hne] using h.mem j
      · have hne : j ≠ i := ne_of_mem_of_not_mem hj hiL
        simpa [setState, Timers.clear, setHandle, hne] using h.used j hj
      · obtain rfl | hne := eq_or_ne j i
        · exact hi
        · exact h.bound j (by simpa [setState, Timers.clear, setHandle, hne] using hj)
      · obtain rfl | hne := eq_or_ne j i
        · simp [setState, Timers.clear, setHandle]
        · have hj : s.free j = false := by simpa [setState, Timers.clear, setHandle, hne] using hj
          have hext := hother j hj
          simpa [setState, Timers.clear, setHandle, hne, hext, hhandle _ hext] using h.owned j hj

theorem hresTimerStop (h : s.Inv L) (timer t : ℕ) : ∃ M, (s.hresTimerStop timer t).1.Inv M := by
  rw [Timers.hresTimerStop]
  cases s.timerGetClientTimer timer with
  | none => exact ⟨L, h⟩
  | some i =>
    have hremoved := h.removed (i := i) (show TimerState.clearedFlag ≠ .setFlag by simp)
    have hresult := (h.linked.timerRemove (i := i)).2.2
    cases hremove : s.timerRemove i with
    | mk x removed =>
      rw [hremove] at hremoved hresult
      simp only [hremove]
      cases removed with
      | true => exact ⟨_, hremoved.timerUpdateTimerInterrupt t⟩
      | false =>
        -- not in the list: nothing has changed
        have hlist : ¬ s.list i = true := fun hl => by simpa using hresult.mpr ((h.linked.listed i).mp hl)
        rw [timerRemove, if_neg hlist] at hremove
        cases hremove
        exact ⟨L, h⟩

theorem hresTimerUndef (h : s.Inv L) (timer t : ℕ) : ∃ M, (s.hresTimerUndef timer t).1.Inv M := by
  rw [Timers.hresTimerUndef]
  cases hclient : s.timerGetClientTimer timer with
  | none => exact ⟨L, h⟩
  | some i =>
    obtain ⟨-, hindex, hused⟩ := timerGetClientTimer_eq_some.mp hclient
    -- the node is out of the list
    obtain ⟨x, hx, hl, hs, hf, hh, he⟩ : ∃ x, (if s.list i then (s.timerRemove i).1.timerUpdateTimerInterrupt t else s) = x ∧
        x.Linked (L.erase i) ∧ x.timerState = s.timerState ∧ x.free = s.free ∧ x.handle = s.handle ∧
        x.externalTimer = s.externalTimer := by
      refine ⟨_, rfl, ?_⟩
      split
      · obtain ⟨hl, ⟨next, prev, first, last, list, heq⟩, -⟩ := h.linked.timerRemove (i := i)
        obtain ⟨m, now, hupdate⟩ := (s.timerRemove i).1.timerUpdateTimerInterrupt_eq t
        rw [hupdate]
        refine ⟨hl.congr rfl rfl rfl rfl rfl fun _ _ => rfl, ?_⟩
        rw [heq]
        exact ⟨rfl, rfl, rfl, rfl⟩
      · rename_i hlist
        rw [List.erase_of_not_mem fun hmem => hlist ((h.linked.listed i).mpr hmem)]
        exact ⟨h.linked, rfl, rfl, rfl, rfl⟩
    simp only [hx]
    have hi : i ∉ L.erase i := h.linked.nodup.not_mem_erase
    refine ⟨L.erase i, (hl.clear hi true).congr rfl rfl rfl rfl rfl fun _ _ => rfl, fun j => ?_, fun j hj => ?_,
      fun j hj => ?_, fun j hj => ?_⟩
    · obtain rfl | hne := eq_or_ne j i
      · simp [Timers.clear, setHandle, hi]
      · rw [List.mem_erase_of_ne hne, h.mem j]
        simp [Timers.clear, setHandle, hne, hs]
    · have hne : j ≠ i := ne_of_mem_of_not_mem hj hi
      simpa [Timers.clear, setHandle, hne, hf] using h.used j (List.mem_of_mem_erase hj)
    all_goals
      have hne : j ≠ i := by
        rintro rfl
        simp [Timers.clear, setHandle] at hj
      have hj : s.free j = false := by simpa [Timers.clear, setHandle, hne, hf] using hj
    · exact h.bound j hj
    · have hext : s.externalTimer j ≠ timer := fun heq => by
        have := h.owned j hj
        rw [heq] at this
        rw [this, timerHandleToIndex_handle (h.bound j hj)] at hindex
        exact hne (Option.some.inj hindex)
      simpa [Timers.clear, setHandle, hne, he, hh, hext] using h.owned j hj

/-- The timer is armed by its own task. -/
theorem timerSet {timer task time t t' : ℕ} {unit : TimeUnit} {reload : Bool} {e : TimerError} (h : s.Inv L)
    (htask : ∀ i, s.timerGetClientTimer timer = some i → s.externalTimer i = timer →
      ∀ owner, s.taskInfo i = some owner → owner = task)
    (hr : s.timerSet timer task time unit reload t t' = some (s', e)) : ∃ M, s'.Inv M := by
  rw [Timers.timerSet] at hr
  split at hr
  · cases hr
    exact ⟨L, h⟩
  · cases hclient : s.timerGetClientTimer timer with
    | none => simp [timerPrepForSet, hclient] at hr
    | some i =>
      obtain ⟨-, -, hused⟩ := timerGetClientTimer_eq_some.mp hclient
      by_cases hext : s.externalTimer i = timer
      · have hi : i ∉ L.erase i := h.linked.nodup.not_mem_erase
        obtain ⟨hl, ⟨next, prev, first, last, list, heq⟩, -⟩ := h.linked.timerRemove (i := i)
        rw [heq] at hl
        simp only [timerPrepForSet, hclient, hext, ne_eq, not_true_eq_false, if_false, heq] at hr
        have hset : ∀ j, Function.update s.timerState i .setFlag j = .setFlag ↔ j = i ∨ j ∈ L.erase i := fun j => by
          obtain rfl | hne := eq_or_ne j i
          · simp
          · rw [Function.update_of_ne hne, List.mem_erase_of_ne hne, h.mem j]
            simp [hne]
        have hfree : ∀ j, j = i ∨ j ∈ L.erase i → s.free j = false := by
          rintro j (rfl | hj)
          · exact hused
          · exact h.used j (List.mem_of_mem_erase hj)
        cases hinfo : s.taskInfo i with
        | none => simp [setState, hinfo] at hr
        | some owner =>
          have howner : owner = task := htask i hclient hext owner hinfo
          simp only [setState, hinfo, howner, not_true_eq_false, if_false, timetickGet] at hr
          obtain ⟨x, hx, hr⟩ := Option.map_eq_some_iff.mp hr
          have hexpiry : ∀ j ∈ L.erase i, Function.update s.expiry i ((t + timerCvtToTick64 time unit) % 2 ^ 64) j =
              s.expiry j := fun j hj => Function.update_of_ne (ne_of_mem_of_not_mem hj hi) ..
          obtain ⟨-, A, B, -, hinv⟩ := inserted hx (hl.congr rfl rfl rfl rfl rfl hexpiry) hi hset hfree h.bound h.owned
          cases hr
          exact ⟨_, hinv.timerUpdateTimerInterrupt t'⟩
      · simp [timerPrepForSet, hclient, hext] at hr

/-! ### The timer task -/

/-- One pass of the loop: the first timer expires. It is out of the list, or reloaded and in it again. -/
theorem processTimer_spec {t : ℕ} (h : s.Inv (i :: L)) (hr : s.processTimer i t = some s') :
    s'.phase = .expiring ∧ s'.ticksNow = s.ticksNow ∧ s'.reload = s.reload ∧ s'.durationSclk = s.durationSclk ∧
    (s.reload i = false ∧ s'.expiry = s.expiry ∧ s'.Inv L ∨
      s.reload i = true ∧ ∃ e A B, reloadExpiry s.ticksNow (s.expiry i) (s.durationSclk i) = some e ∧
        s'.expiry = Function.update s.expiry i e ∧ L = A ++ B ∧ s'.Inv (A ++ i :: B)) := by
  have hiL : i ∉ L := (List.nodup_cons.mp h.linked.nodup).1
  have hset : s.timerState i = .setFlag := (h.mem i).mp List.mem_cons_self
  obtain ⟨hl, ⟨next, prev, first, last, list, heq⟩, -⟩ := h.linked.timerRemove (i := i)
  rw [heq, List.erase_cons_head] at hl
  rw [Timers.processTimer, h.linked.chained.timerRemoveHead, heq] at hr
  cases hreload : s.reload i with
  | false =>
    simp only [hreload, Bool.false_eq_true, if_false, timerDetermineTimerExpiry, hset, if_true, Option.map_some] at hr
    cases hr
    refine ⟨rfl, rfl, rfl, rfl, .inl ⟨rfl, rfl, hl.congr rfl rfl rfl rfl rfl fun _ _ => rfl, fun j => ?_, fun j hj => ?_,
      h.bound, h.owned⟩⟩
    · change _ ↔ Function.update s.timerState i .expiredFlag j = .setFlag
      obtain rfl | hne := eq_or_ne j i
      · simp [hiL]
      · rw [Function.update_of_ne hne, ← h.mem j]
        simp [hne]
    · exact h.used j (List.mem_cons_of_mem i hj)
  | true =>
    simp only [hreload, if_true] at hr
    cases he : reloadExpiry s.ticksNow (s.expiry i) (s.durationSclk i) with
    | none => simp [he] at hr
    | some e =>
      simp only [he, Option.map_map] at hr
      obtain ⟨x, hx, hr⟩ := Option.map_eq_some_iff.mp hr
      have hexpiry : ∀ j ∈ L, Function.update s.expiry i e j = s.expiry j :=
        fun j hj => Function.update_of_ne (ne_of_mem_of_not_mem hj hiL) ..
      obtain ⟨⟨next, prev, first, last, list, rfl⟩, A, B, hAB, hinv⟩ := inserted hx
        (hl.congr rfl rfl rfl rfl rfl hexpiry) hiL (fun j => (h.mem j).symm.trans List.mem_cons)
        (fun j hj => h.used j (List.mem_cons.mpr hj)) h.bound h.owned
      simp only [timerDetermineTimerExpiry, hset, if_true, Function.comp_apply] at hr
      cases hr
      -- the state is that of a timer that is set, as before
      refine ⟨rfl, rfl, rfl, rfl, .inr ⟨rfl, e, A, B, rfl, rfl, hAB,
        hinv.congr (hinv.linked.congr rfl rfl rfl rfl rfl fun _ _ => rfl) ?_ rfl rfl rfl⟩⟩
      change Function.update (Function.update s.timerState i .expiredFlag) i .setFlag = s.timerState
      rw [Function.update_idem, ← hset, Function.update_eq_self]

/-- Only a division by 0 keeps the pass from its end. -/
theorem processTimer_isSome (h : s.Inv (i :: L)) (t : ℕ)
    (he : s.reload i = true → (reloadExpiry s.ticksNow (s.expiry i) (s.durationSclk i)).isSome) :
    ∃ s', s.processTimer i t = some s' := by
  have hiL : i ∉ L := (List.nodup_cons.mp h.linked.nodup).1
  obtain ⟨hl, ⟨next, prev, first, last, list, heq⟩, -⟩ := h.linked.timerRemove (i := i)
  rw [heq, List.erase_cons_head] at hl
  have hlen : L.length ≤ maxTimers := (Nat.le_succ _).trans h.length_le
  rw [Timers.processTimer, h.linked.chained.timerRemoveHead, heq]
  cases hreload : s.reload i with
  | false =>
    simp only [Bool.false_eq_true, if_false, Option.map_some]
    exact ⟨_, rfl⟩
  | true =>
    obtain ⟨e, he⟩ := Option.isSome_iff_exists.mp (he hreload)
    have hexpiry : ∀ j ∈ L, Function.update s.expiry i e j = s.expiry j :=
      fun j hj => Function.update_of_ne (ne_of_mem_of_not_mem hj hiL) ..
    have hl' : Linked { s with
        next := next, prev := prev, first := first, last := last, list := list
        expiry := Function.update s.expiry i e, start := Function.update s.start i s.ticksNow } L :=
      hl.congr rfl rfl rfl rfl rfl hexpiry
    obtain ⟨x, A, B, hx, -⟩ := hl'.timerInsert hiL hlen
    simp only [if_true, he, hx, Option.map_some]
    exact ⟨_, rfl⟩

theorem processTimer {t : ℕ} (h : s.Inv L) (hi : s.first = some i) (hr : s.processTimer i t = some s') :
    ∃ M, s'.Inv M := by
  cases L with
  | nil => cases hi.symm.trans h.linked.doubly.1
  | cons k L =>
    obtain rfl : i = k := Option.some.inj (hi.symm.trans h.linked.doubly.1.1)
    obtain ⟨-, -, -, -, ⟨-, -, hinv⟩ | ⟨-, e, A, B, -, -, -, hinv⟩⟩ := h.processTimer_spec hr
    · exact ⟨L, hinv⟩
    · exact ⟨_, hinv⟩

theorem processEnd (h : s.Inv L) : s.processEnd.Inv L := by
  rw [Timers.processEnd]
  cases s.first with
  | none => exact h.congr (h.linked.congr rfl rfl rfl rfl rfl fun _ _ => rfl) rfl rfl rfl rfl
  | some f => exact h.congr (h.linked.congr rfl rfl rfl rfl rfl fun _ _ => rfl) rfl rfl rfl rfl

/-- A sleep keeps the order if it keeps that of the new times. -/
theorem timerAdjustActiveList {adjustTick t : ℕ} (h : s.Inv L)
    (hsorted : L.Pairwise fun a b =>
      newTime t adjustTick (s.durationSclk a) ≤ newTime t adjustTick (s.durationSclk b)) :
    ∃ s', s.timerAdjustActiveList adjustTick t = some s' ∧ s'.Inv L := by
  rw [Timers.timerAdjustActiveList]
  have hadjust := @adjustFrom_eq (s.timetickGet t) L adjustTick maxTimers _ h.linked.doubly.1 h.length_le
  simp only [timetickGet] at hadjust ⊢
  rw [hadjust]
  refine ⟨_, rfl, ⟨h.linked.doubly, ?_, h.linked.listed⟩, h.mem, h.used, h.bound, h.owned⟩
  exact hsorted.imp_of_mem fun {a b} ha hb hab => by simpa [ha, hb] using hab

end Inv

/-! ### Runs -/

/-- The active list is a list in both directions, in order of the expiry, of the timers that are set, each once, and
    no variable has two timers. -/
def Well (s : Timers) : Prop :=
  ∃ L, Doubly s.next s.prev s.first s.last L ∧ L.Nodup ∧ L.Pairwise (fun a b => s.expiry a ≤ s.expiry b) ∧
    (∀ i, i ∈ L ↔ i < maxTimers ∧ s.timerState i = .setFlag) ∧ (∀ i ∈ L, s.free i = false) ∧
    ∀ i j, i < maxTimers → j < maxTimers → s.free i = false → s.free j = false →
      s.externalTimer i = s.externalTimer j → i = j

theorem Inv.well (h : s.Inv L) : s.Well := by
  refine ⟨L, h.linked.doubly, h.linked.nodup, h.linked.sorted, fun i => ⟨fun hi => ?_, fun hi => (h.mem i).mpr hi.2⟩,
    h.used, fun i j hi hj hfi hfj hij => ?_⟩
  · exact ⟨h.bound i (h.used i hi), (h.mem i).mp hi⟩
  · have heq := h.owned i hfi
    rw [hij, h.owned j hfj] at heq
    have := timerHandleToIndex_handle hi
    rw [← heq, timerHandleToIndex_handle hj] at this
    exact (Option.some.inj this).symm

end Timers

namespace Event

/-- The condition on an event: a variable that is defined has no timer, a timer is set by its own task, and the times
    that a sleep gives to the active timers are in the order of the list. -/
def Apt (s : Timers) : Event → Prop
  | .define timer _ _ => ∀ i, s.timerGetClientTimer timer = some i → s.externalTimer i ≠ timer
  | .set timer task _ _ _ _ _ => ∀ i, s.timerGetClientTimer timer = some i → s.externalTimer i = timer →
      ∀ owner, s.taskInfo i = some owner → owner = task
  | .adjust adjustTick t => ∀ L, Path s.next s.first L none → L.Pairwise fun a b =>
      Timers.newTime t adjustTick (s.durationSclk a) ≤ Timers.newTime t adjustTick (s.durationSclk b)
  | _ => True

def AptStep (s s' : Timers) : Prop := ∃ e : Event, e.Apt s ∧ e.run s = some s'

end Event

/-- What an event keeps. -/
theorem Timers.Inv.run {s s' : Timers} {L : List ℕ} {e : Event} (h : s.Inv L) (ha : e.Apt s)
    (hr : e.run s = some s') : ∃ M, s'.Inv M := by
  have hsame : ∀ {x : Timers}, x.next = s.next → x.prev = s.prev → x.first = s.first → x.last = s.last →
      x.list = s.list → x.expiry = s.expiry → x.timerState = s.timerState → x.free = s.free → x.handle = s.handle →
      x.externalTimer = s.externalTimer → x.Inv L := fun h1 h2 h3 h4 h5 h6 h7 h8 h9 h10 =>
    h.congr (h.linked.congr h1 h2 h3 h4 h5 fun _ _ => congrFun h6 _) h7 h8 h9 h10
  cases e with
  | tick t =>
    cases hr
    exact ⟨L, hsame rfl rfl rfl rfl rfl rfl rfl rfl rfl rfl⟩
  | define timer timerCb taskInfo =>
    obtain ⟨-, hr⟩ := ite_eq_iff.mp hr |>.resolve_left fun hn => by simp at hn
    obtain ⟨⟨x, e⟩, hx, rfl⟩ := Option.map_eq_some_iff.mp hr
    exact ⟨L, h.hresTimerDef ha hx⟩
  | set timer task time reload unit t t' =>
    obtain ⟨-, hr⟩ := ite_eq_iff.mp hr |>.resolve_left fun hn => by simp at hn
    obtain ⟨⟨x, e⟩, hx, rfl⟩ := Option.map_eq_some_iff.mp hr
    rw [Timers.hresTimerSet64] at hx
    split at hx
    · cases hx
      exact ⟨L, h⟩
    · obtain ⟨⟨y, e⟩, hy, hx⟩ := Option.map_eq_some_iff.mp hx
      cases hx
      exact h.timerSet ha hy
  | stop timer t =>
    obtain ⟨-, hr⟩ := ite_eq_iff.mp hr |>.resolve_left fun hn => by simp at hn
    cases hr
    exact h.hresTimerStop timer t
  | undef timer t =>
    obtain ⟨-, hr⟩ := ite_eq_iff.mp hr |>.resolve_left fun hn => by simp at hn
    cases hr
    exact h.hresTimerUndef timer t
  | adjust adjustTick t =>
    obtain ⟨-, hr⟩ := ite_eq_iff.mp hr |>.resolve_right fun hn => by simp at hn
    obtain ⟨x, hx, hinv⟩ := h.timerAdjustActiveList (ha L h.linked.doubly.1)
    cases hx.symm.trans hr
    exact ⟨L, hinv⟩
  | processStart t =>
    obtain ⟨-, hr⟩ := ite_eq_iff.mp hr |>.resolve_right fun hn => by simp at hn
    cases hr
    exact ⟨L, hsame rfl rfl rfl rfl rfl rfl rfl rfl rfl rfl⟩
  | processNext t =>
    obtain ⟨-, hr⟩ := ite_eq_iff.mp hr |>.resolve_right fun hn => by simp at hn
    cases hfirst : s.first with
    | none =>
      simp only [hfirst] at hr
      cases hr
      exact ⟨L, h.processEnd⟩
    | some i =>
      simp only [hfirst] at hr
      split at hr
      · exact h.processTimer hfirst hr
      · cases hr
        exact ⟨L, h.processEnd⟩
  | resume t =>
    obtain ⟨-, hr⟩ := ite_eq_iff.mp hr |>.resolve_right fun hn => by simp at hn
    cases hr
    exact ⟨L, hsame rfl rfl rfl rfl rfl rfl rfl rfl rfl rfl⟩

/-- What a run of such events keeps. -/
theorem Timers.Inv.reach {handle : ℕ → ℕ} {s : Timers} (h : Reach Event.AptStep (Timers.init handle) s) :
    ∃ L, s.Inv L := by
  refine Reach.inv (P := fun s => ∃ L, s.Inv L) h ⟨[], Timers.Inv.init handle⟩ ?_
  rintro x y ⟨e, ha, hr⟩ ⟨L, hx⟩
  exact hx.run ha hr

/-- In every run whose events meet the condition the timers are well formed in every state. -/
theorem timers_well {handle : ℕ → ℕ} {s : Timers} (h : Reach Event.AptStep (Timers.init handle) s) : s.Well := by
  obtain ⟨L, hinv⟩ := Timers.Inv.reach h
  exact hinv.well

/-- The events one after the other. -/
def Event.runAll (s : Timers) (es : List Event) : Option Timers := es.foldlM (fun s e => e.run s) s

/-- An event of `timer_process_active_timers`. -/
def Event.ofProcess : Event → Bool
  | .processStart _ | .processNext _ | .resume _ => true
  | .define .. | .set .. | .stop .. | .undef .. | .adjust .. | .tick _ => false

/-- The task 7 defines a timer and sets it; it expires while the timer task is in its loop, and its owner stops it. -/
theorem timers_well_one : ∃ s, Event.runAll (Timers.init fun _ => 0)
    [.define 1 (some 3) (some 7), .set 1 7 100 true .tick 0 0, .processStart 150, .processNext 0, .stop 1 160,
      .resume 170, .processNext 0] = some s ∧ s.Well := by
  refine ⟨_, rfl, ?_⟩
  have h₁ : Reach Event.AptStep (Timers.init fun _ => 0) _ :=
    .one ⟨.define 1 (some 3) (some 7), fun i hi => by simp [Timers.timerGetClientTimer, Timers.init, timerHandleToIndex,
      timerMagic] at hi, rfl⟩
  have h₂ := h₁.tail ⟨.set 1 7 100 true .tick 0 0, fun i hi _ owner ho => by cases hi; cases ho; rfl, rfl⟩
  have h₃ := h₂.tail ⟨.processStart 150, trivial, rfl⟩
  have h₄ := h₃.tail ⟨.processNext 0, trivial, rfl⟩
  have h₅ := h₄.tail ⟨.stop 1 160, trivial, rfl⟩
  have h₆ := h₅.tail ⟨.resume 170, trivial, rfl⟩
  exact timers_well (h₆.tail ⟨.processNext 0, trivial, rfl⟩)

/-- A variable that is defined twice has two timers. A timer that another task sets has the state of one that is set
    and is in no list. A sleep puts the timer that was set first behind the other one. -/
theorem timers_broken :
    (∃ s, Event.runAll (Timers.init fun _ => 0) [.define 1 (some 3) (some 7), .define 1 (some 3) (some 7)] = some s ∧
      ¬ s.Well) ∧
    (∃ s, Event.runAll (Timers.init fun _ => 0) [.define 1 (some 3) (some 7), .set 1 8 100 false .tick 0 0] = some s ∧
      ¬ s.Well) ∧
    ∃ s, Event.runAll (Timers.init fun _ => 0)
      [.define 1 (some 3) (some 7), .define 2 (some 3) (some 7), .set 1 7 100 false .tick 0 0,
        .set 2 7 60 false .tick 50 50, .adjust 50 60] = some s ∧ ¬ s.Well := by
  refine ⟨⟨_, rfl, ?_⟩, ⟨_, rfl, ?_⟩, _, rfl, ?_⟩
  · rintro ⟨L, -, -, -, -, -, h⟩
    exact absurd (h 0 1 (by decide) (by decide) rfl rfl rfl) (by decide)
  · rintro ⟨L, hd, -, -, hmem, -⟩
    have hL : L = [] := Path.unique hd.1 rfl
    have := (hmem 0).mpr ⟨by decide, rfl⟩
    simp [hL] at this
  · rintro ⟨L, hd, -, hsorted, -⟩
    have hL : L = [0, 1] := Path.unique hd.1 ⟨rfl, rfl, rfl⟩
    rw [hL, List.pairwise_cons] at hsorted
    exact absurd (hsorted.1 1 (by simp)) (by decide)

end Qcc730.Timer
