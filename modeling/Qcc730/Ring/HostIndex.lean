import Qcc730.Ring.A2f
import Qcc730.Ring.F2a

/-! The index the host owns, whatever the host writes to it.

    `ringif_a2f_process_pkts` and `ringif_f2a_clear_used_bufs` load the index of the host again in every pass of
    their loops. A call is taken here pass by pass, with what each pass finds in the shared memory and what the
    callbacks return: any sequence of these is one that a host can bring about. -/

namespace Qcc730.Ring
open Lib

/-! ### The loop of `ringif_a2f_process_pkts` -/

/-- What a pass finds. -/
structure ProcessPass where
  /-- the write index, which the host owns -/
  writeIdx : ℕ
  /-- the element the pass is at -/
  elem : Element
  /-- what `pfn_process` returns, if it is called -/
  ok : Bool
  /-- what `pfn_refill` finds, if it is called -/
  fresh : Option Packet

/-- A callback ends the loop. -/
def ProcessPass.Fails (p : ProcessPass) : Prop := (p.elem.Filled ∧ p.ok = false) ∨ p.fresh = none

instance (p : ProcessPass) : Decidable p.Fails := inferInstanceAs (Decidable (_ ∨ _))

/-- A call: where it stands, the elements it has accessed, and whether it is in the loop. -/
structure ProcessRun where
  idx : ℕ
  accessed : List ℕ
  running : Bool
  deriving DecidableEq, Repr

/-- A pass of the loop. -/
def ProcessRun.pass (n : ℕ) (s : ProcessRun) (p : ProcessPass) : ProcessRun :=
  if s.running = false then s
  else if s.idx = p.writeIdx then { s with running := false }
  else if p.Fails then { s with accessed := s.accessed ++ [s.idx], running := false }
  else { s with idx := (s.idx + 1) % n, accessed := s.accessed ++ [s.idx] }

/-- `ringif_a2f_process_pkts` on the ring it finds, `k` passes on. -/
def RingCtx.processRun (c : RingCtx) (pass : ℕ → ProcessPass) : ℕ → ProcessRun
  | 0 => ⟨c.readIdx, [], decide (c.readIdx ≠ c.writeIdx)⟩
  | k + 1 => (c.processRun pass k).pass c.ringNumElem (pass k)

/-- The call is over within one lap and stays in the ring. -/
def RingCtx.ProcessTolerates (c : RingCtx) (pass : ℕ → ProcessPass) : Prop :=
  (∃ k, (c.processRun pass k).running = false ∧ (c.processRun pass k).accessed.length ≤ c.ringNumElem) ∧
    ∀ k, ∀ i ∈ (c.processRun pass k).accessed, i < c.ringNumElem

/-- The call finds the ring empty, or within a lap a pass finds the write index at the element it is at, or a
    callback fails. -/
def RingCtx.ProcessEnds (c : RingCtx) (pass : ℕ → ProcessPass) : Prop :=
  c.readIdx = c.writeIdx ∨ (∃ j ≤ c.ringNumElem, (pass j).writeIdx = (c.readIdx + j) % c.ringNumElem) ∨
    ∃ j < c.ringNumElem, (pass j).Fails

namespace RingCtx

variable {c : RingCtx} {pass : ℕ → ProcessPass} {k : ℕ}

/-- A call that left the loop is over. -/
theorem processRun_add (h : (c.processRun pass k).running = false) (m : ℕ) :
    c.processRun pass (k + m) = c.processRun pass k := by
  induction m with
  | zero => rfl
  | succ m ih => rw [← Nat.add_assoc, processRun, ih, ProcessRun.pass, if_pos h]

/-- Pass `j` ends the loop of a call that is at its element. -/
def ProcessStops (c : RingCtx) (pass : ℕ → ProcessPass) (j : ℕ) : Prop :=
  (pass j).writeIdx = (c.readIdx + j) % c.ringNumElem ∨ (pass j).Fails

instance : DecidablePred (c.ProcessStops pass) := fun _ => inferInstanceAs (Decidable (_ ∨ _))

/-- The elements of the first `k` passes. -/
def visited (n start k : ℕ) : List ℕ := (List.range k).map fun j => (start + j) % n

theorem visited_succ (n start k : ℕ) : visited n start (k + 1) = visited n start k ++ [(start + k) % n] := by
  simp [visited, List.range_succ]

theorem length_visited (n start k : ℕ) : (visited n start k).length = k := by simp [visited]

theorem lt_of_mem_visited {n start i : ℕ} (hn : 0 < n) (h : i ∈ visited n start k) : i < n := by
  obtain ⟨j, -, rfl⟩ := List.mem_map.mp h
  exact Nat.mod_lt _ hn

/-- As long as no pass ends it, the call goes round the ring. -/
theorem processRun_of_not_stops (hr : c.readIdx < c.ringNumElem) (hne : c.readIdx ≠ c.writeIdx)
    (h : ∀ j < k, ¬ c.ProcessStops pass j) :
    c.processRun pass k = ⟨(c.readIdx + k) % c.ringNumElem, visited c.ringNumElem c.readIdx k, true⟩ := by
  induction k with
  | zero => simp [processRun, visited, Nat.mod_eq_of_lt hr, hne]
  | succ k ih =>
    have hk := h k k.lt_succ_self
    rw [ProcessStops, not_or] at hk
    rw [processRun, ih fun j hj => h j (Nat.lt_succ_of_lt hj), ProcessRun.pass, if_neg (by simp),
      if_neg (Ne.symm hk.1), if_neg hk.2, visited_succ]
    simp only [succ_mod, Nat.add_assoc]

/-- The first pass that ends it. -/
theorem processRun_stops (hr : c.readIdx < c.ringNumElem) (hne : c.readIdx ≠ c.writeIdx)
    (h : ∀ j < k, ¬ c.ProcessStops pass j) (hk : c.ProcessStops pass k) :
    (c.processRun pass (k + 1)).running = false ∧
      (c.processRun pass (k + 1)).accessed =
        visited c.ringNumElem c.readIdx
          (if (pass k).writeIdx = (c.readIdx + k) % c.ringNumElem then k else k + 1) := by
  rw [processRun, processRun_of_not_stops hr hne h, ProcessRun.pass, if_neg (by simp)]
  dsimp only
  by_cases hw : (pass k).writeIdx = (c.readIdx + k) % c.ringNumElem
  · rw [if_pos hw.symm, if_pos hw]
    exact ⟨rfl, rfl⟩
  · rw [if_neg (Ne.symm hw), if_pos (hk.resolve_left hw), if_neg hw, visited_succ]
    exact ⟨rfl, rfl⟩

/-- A call accesses elements of the ring only. -/
theorem processRun_accessed (hr : c.readIdx < c.ringNumElem) (k : ℕ) :
    ∃ m, (c.processRun pass k).accessed = visited c.ringNumElem c.readIdx m := by
  by_cases hne : c.readIdx = c.writeIdx
  · have h0 : (c.processRun pass 0).running = false := by simp [processRun, hne]
    have hk := processRun_add h0 k
    rw [Nat.zero_add] at hk
    exact ⟨0, by rw [hk]; rfl⟩
  · by_cases h : ∃ j < k, c.ProcessStops pass j
    · obtain ⟨j, ⟨hj, hs⟩, hmin⟩ := Nat.findX h
      have hfirst : ∀ i < j, ¬ c.ProcessStops pass i := fun i hi hsi => hmin i hi ⟨hi.trans hj, hsi⟩
      obtain ⟨hrun, hacc⟩ := processRun_stops hr hne hfirst hs
      obtain ⟨m, rfl⟩ := Nat.exists_eq_add_of_le hj
      exact ⟨_, by rw [processRun_add hrun m, hacc]⟩
    · exact ⟨k, by rw [processRun_of_not_stops hr hne fun j hj hs => h ⟨j, hj, hs⟩]⟩

theorem processTolerates_iff (hr : c.readIdx < c.ringNumElem) : c.ProcessTolerates pass ↔ c.ProcessEnds pass := by
  have hn : 0 < c.ringNumElem := by omega
  have hsafe : ∀ k, ∀ i ∈ (c.processRun pass k).accessed, i < c.ringNumElem := by
    intro k i hi
    obtain ⟨m, hm⟩ : ∃ m, (c.processRun pass k).accessed = visited c.ringNumElem c.readIdx m :=
      processRun_accessed hr k
    exact lt_of_mem_visited hn (hm ▸ hi)
  rw [ProcessTolerates, and_iff_left hsafe, ProcessEnds]
  by_cases hne : c.readIdx = c.writeIdx
  · exact iff_of_true ⟨0, by simp [processRun, hne]⟩ (.inl hne)
  constructor
  · rintro ⟨k, hk, hlen⟩
    have h : ∃ j, c.ProcessStops pass j := by
      by_contra h
      rw [processRun_of_not_stops hr hne fun j _ hs => h ⟨j, hs⟩] at hk
      exact Bool.noConfusion hk
    obtain ⟨j, hs, hmin⟩ := Nat.findX h
    obtain ⟨hrun, hacc⟩ := processRun_stops hr hne hmin hs
    have hjk : j < k := by
      by_contra hle
      rw [processRun_of_not_stops hr hne fun i hi => hmin i (by omega)] at hk
      exact Bool.noConfusion hk
    obtain ⟨m, rfl⟩ := Nat.exists_eq_add_of_le hjk
    rw [Nat.succ_eq_add_one, processRun_add hrun m, hacc, length_visited] at hlen
    split at hlen
    · rename_i hw
      exact .inr (.inl ⟨j, hlen, hw⟩)
    · rename_i hw
      exact .inr (.inr ⟨j, hlen, hs.resolve_left hw⟩)
  · intro hends
    have h : ∃ j ≤ c.ringNumElem, c.ProcessStops pass j ∧
        (j = c.ringNumElem → (pass j).writeIdx = (c.readIdx + j) % c.ringNumElem) := by
      rcases hends.resolve_left hne with ⟨j, hj, hw⟩ | ⟨j, hj, hf⟩
      · exact ⟨j, hj, .inl hw, fun _ => hw⟩
      · exact ⟨j, hj.le, .inr hf, fun he => absurd he hj.ne⟩
    obtain ⟨l, hl, hsl, hlast⟩ := h
    obtain ⟨j, hs, hmin⟩ := Nat.findX ⟨l, hsl⟩
    obtain ⟨hrun, hacc⟩ := processRun_stops hr hne hmin hs
    have hjl : j ≤ l := not_lt.mp fun hlt => hmin l hlt hsl
    refine ⟨j + 1, hrun, ?_⟩
    rw [hacc, length_visited]
    split
    · omega
    · rename_i hw
      have : j ≠ c.ringNumElem := fun he => hw (by
        obtain rfl : j = l := by omega
        exact hlast he)
      omega

end RingCtx

/-! ### The loop of `ringif_f2a_clear_used_bufs` -/

/-- What a pass finds. -/
structure ClearPass where
  /-- the element the pass is at -/
  elem : Element
  /-- `ringif_f2a_pkt_attach` is done with the element: the write index has passed it -/
  offered : Bool
  /-- what the clear function returns, if it is called -/
  ok : Bool
  /-- the read index, which the host owns, after the element is cleared -/
  readIdx : ℕ

/-- A buffer that is passed to the clear function, and what is known of it. -/
structure Handing where
  idx : ℕ
  elem : Element
  offered : Bool
  /-- the read index as it was loaded last -/
  readIdx : ℕ
  /-- the whole ring was found attached and read -/
  lap : Bool
  deriving DecidableEq

/-- The host was offered the buffer and has read it: the read index is one of the ring and says that the element at
    the clear index has been read. -/
structure Handing.Due (n : ℕ) (h : Handing) : Prop where
  filled : h.elem.Filled
  offered : h.offered = true
  inRing : h.readIdx < n
  read : h.readIdx ≠ h.idx ∨ h.lap = true

/-- A call: where it stands, the read index it loaded last, and what it has done. -/
structure ClearRun where
  idx : ℕ
  readIdx : ℕ
  lap : Bool
  accessed : List ℕ
  handed : List Handing
  /-- how many passes it has made -/
  passes : ℕ
  running : Bool
  deriving DecidableEq

/-- A pass of the loop. -/
def ClearRun.pass (n : ℕ) (s : ClearRun) (p : ClearPass) : ClearRun :=
  if s.running = false then s
  else
    let s' := { s with accessed := s.accessed ++ [s.idx], passes := s.passes + 1 }
    if p.elem.Filled then
      let s'' := { s' with handed := s.handed ++ [Handing.mk s.idx p.elem p.offered s.readIdx s.lap] }
      if p.ok then
        { s'' with
          idx := (s.idx + 1) % n
          readIdx := p.readIdx
          lap := false
          running := decide ((s.idx + 1) % n ≠ p.readIdx) }
      else { s'' with running := false }
    else { s' with running := false }

namespace RingCtx

/-- The test before the loop: nothing is to be cleared. -/
def ClearReturns (c : RingCtx) : Prop :=
  c.ringIdxToClear = c.readIdx ∧ (c.writeIdx ≠ c.readIdx ∨ c.ringBufFull c.ringIdxToClear = false)

instance (c : RingCtx) : Decidable c.ClearReturns := inferInstanceAs (Decidable (_ ∧ _))

/-- `ringif_f2a_clear_used_bufs` on the ring it finds, `k` passes on. -/
def clearRun (c : RingCtx) (pass : ℕ → ClearPass) : ℕ → ClearRun
  | 0 =>
    { idx := c.ringIdxToClear
      readIdx := c.readIdx
      lap := decide (c.ringIdxToClear = c.readIdx)
      accessed :=
        if c.ringIdxToClear = c.readIdx ∧ c.writeIdx = c.readIdx then
          [c.ringIdxToClear, if c.ringIdxToClear = 0 then c.ringNumElem - 1 else c.ringIdxToClear - 1]
        else []
      handed := []
      passes := 0
      running := decide (¬ c.ClearReturns) }
  | k + 1 => (c.clearRun pass k).pass c.ringNumElem (pass k)

/-- The call is over within one lap, stays in the ring and clears nothing that the host has still to read. -/
def ClearTolerates (c : RingCtx) (pass : ℕ → ClearPass) : Prop :=
  (∃ k, (c.clearRun pass k).running = false ∧ (c.clearRun pass k).passes ≤ c.ringNumElem) ∧
    (∀ k, ∀ i ∈ (c.clearRun pass k).accessed, i < c.ringNumElem) ∧
    ∀ k, ∀ h ∈ (c.clearRun pass k).handed, h.Due c.ringNumElem

/-- The read index that is loaded before pass `j`. -/
def loadedRead (c : RingCtx) (pass : ℕ → ClearPass) : ℕ → ℕ
  | 0 => c.readIdx
  | j + 1 => (pass j).readIdx

/-- Pass `j` ends the loop: its element is not attached, or cannot be cleared, or the read index it loads is the
    next element. -/
def ClearStops (c : RingCtx) (pass : ℕ → ClearPass) (j : ℕ) : Prop :=
  ¬ (pass j).elem.Filled ∨ (pass j).ok = false ∨ (pass j).readIdx = (c.ringIdxToClear + j + 1) % c.ringNumElem

instance (c : RingCtx) (pass : ℕ → ClearPass) : DecidablePred (c.ClearStops pass) := fun _ =>
  inferInstanceAs (Decidable (_ ∨ _))

/-- There is nothing to clear; or one of the first passes of a lap ends the loop, and up to that pass every buffer
    is offered and the read index is one of the ring. -/
def ClearSound (c : RingCtx) (pass : ℕ → ClearPass) : Prop :=
  c.ClearReturns ∨
    ((∃ j < c.ringNumElem, c.ClearStops pass j) ∧
      ∀ j, (∀ i < j, ¬ c.ClearStops pass i) → (pass j).elem.Filled →
        (pass j).offered = true ∧ c.loadedRead pass j < c.ringNumElem)

variable {c : RingCtx} {pass : ℕ → ClearPass} {k : ℕ}

theorem clearRun_add (h : (c.clearRun pass k).running = false) (m : ℕ) :
    c.clearRun pass (k + m) = c.clearRun pass k := by
  induction m with
  | zero => rfl
  | succ m ih => rw [← Nat.add_assoc, clearRun, ih, ClearRun.pass, if_pos h]

/-- The call is in the loop after `k` passes, and has passed on what it was to pass on. -/
structure ClearGoing (c : RingCtx) (pass : ℕ → ClearPass) (k : ℕ) : Prop where
  running : (c.clearRun pass k).running = true
  idx : (c.clearRun pass k).idx = (c.ringIdxToClear + k) % c.ringNumElem
  readIdx : (c.clearRun pass k).readIdx = c.loadedRead pass k
  passes : (c.clearRun pass k).passes = k
  read : (c.clearRun pass k).readIdx ≠ (c.clearRun pass k).idx ∨ (c.clearRun pass k).lap = true

theorem clearGoing_zero (hr : c.ringIdxToClear < c.ringNumElem) (hne : ¬ c.ClearReturns) : c.ClearGoing pass 0 := by
  refine ⟨by simp [clearRun, hne], by simp [clearRun, Nat.mod_eq_of_lt hr], rfl, rfl, ?_⟩
  by_cases h : c.ringIdxToClear = c.readIdx
  · exact .inr (by simp [clearRun, h])
  · exact .inl (Ne.symm h)

theorem ClearGoing.succ (h : c.ClearGoing pass k) (hk : ¬ c.ClearStops pass k) : c.ClearGoing pass (k + 1) := by
  simp only [ClearStops, not_or, not_not, Bool.not_eq_false] at hk
  obtain ⟨hfilled, hok, hne⟩ := hk
  have hrun : (c.clearRun pass (k + 1)) = (c.clearRun pass k).pass c.ringNumElem (pass k) := rfl
  have hidx : ((c.clearRun pass k).idx + 1) % c.ringNumElem = (c.ringIdxToClear + k + 1) % c.ringNumElem := by
    rw [h.idx, succ_mod]
  simp only [ClearRun.pass, h.running, Bool.true_eq_false, if_false, if_pos hfilled, hok, if_true, hidx] at hrun
  refine ⟨?_, ?_, ?_, ?_, ?_⟩
  · rw [hrun]
    exact decide_eq_true (Ne.symm hne)
  · rw [hrun, Nat.add_assoc]
  · rw [hrun]
    rfl
  · rw [hrun]
    exact congrArg (· + 1) h.passes
  · rw [hrun]
    exact .inl hne

theorem clearGoing_of_not_stops (hr : c.ringIdxToClear < c.ringNumElem) (hne : ¬ c.ClearReturns)
    (h : ∀ j < k, ¬ c.ClearStops pass j) : c.ClearGoing pass k := by
  induction k with
  | zero => exact clearGoing_zero hr hne
  | succ k ih => exact (ih fun j hj => h j (Nat.lt_succ_of_lt hj)).succ (h k k.lt_succ_self)

/-- The pass that ends the loop. -/
theorem ClearGoing.stop (h : c.ClearGoing pass k) (hk : c.ClearStops pass k) :
    (c.clearRun pass (k + 1)).running = false ∧ (c.clearRun pass (k + 1)).passes = k + 1 := by
  rw [clearRun, ClearRun.pass, if_neg (by simp [h.running])]
  dsimp only
  split
  · split
    · rename_i hfilled hok
      have hlast := (hk.resolve_left (not_not.mpr hfilled)).resolve_left (by simp [hok])
      rw [h.idx, succ_mod, hlast]
      exact ⟨by simp, congrArg (· + 1) h.passes⟩
    · exact ⟨rfl, congrArg (· + 1) h.passes⟩
  · exact ⟨rfl, congrArg (· + 1) h.passes⟩

/-- What a pass hands over. -/
theorem ClearGoing.handed (h : c.ClearGoing pass k) :
    (c.clearRun pass (k + 1)).handed = (c.clearRun pass k).handed ++
      if (pass k).elem.Filled then
        [⟨(c.clearRun pass k).idx, (pass k).elem, (pass k).offered, c.loadedRead pass k, (c.clearRun pass k).lap⟩]
      else [] := by
  rw [clearRun, ClearRun.pass, if_neg (by simp [h.running]), ← h.readIdx]
  dsimp only
  split
  · split <;> rfl
  · rw [List.append_nil]

theorem clearRun_succ_accessed (c : RingCtx) (pass : ℕ → ClearPass) (k : ℕ) :
    (c.clearRun pass (k + 1)).accessed = (c.clearRun pass k).accessed ∨
      (c.clearRun pass (k + 1)).accessed = (c.clearRun pass k).accessed ++ [(c.clearRun pass k).idx] := by
  rw [clearRun, ClearRun.pass]
  split
  · exact .inl rfl
  · dsimp only
    split
    · split <;> exact .inr rfl
    · exact .inr rfl

theorem clearRun_idx_lt (hr : c.ringIdxToClear < c.ringNumElem) (k : ℕ) :
    (c.clearRun pass k).idx < c.ringNumElem := by
  induction k with
  | zero => exact hr
  | succ k ih =>
    rw [clearRun, ClearRun.pass]
    split
    · exact ih
    · dsimp only
      split
      · split
        · exact Nat.mod_lt _ (by omega)
        · exact ih
      · exact ih

theorem clearRun_accessed (hr : c.ringIdxToClear < c.ringNumElem) (k : ℕ) :
    ∀ i ∈ (c.clearRun pass k).accessed, i < c.ringNumElem := by
  induction k with
  | zero =>
    intro i hi
    simp only [clearRun] at hi
    split at hi
    · simp only [List.mem_cons, List.not_mem_nil, or_false] at hi
      rcases hi with rfl | rfl
      · exact hr
      · split <;> omega
    · exact absurd hi List.not_mem_nil
  | succ k ih =>
    intro i hi
    rcases clearRun_succ_accessed c pass k with h | h
    · exact ih i (h ▸ hi)
    · rw [h, List.mem_append, List.mem_singleton] at hi
      rcases hi with hi | rfl
      · exact ih i hi
      · exact clearRun_idx_lt hr k

/-- A call that goes past `k` passes has not been ended by one of them. -/
theorem not_stops_of_running (hr : c.ringIdxToClear < c.ringNumElem) (h : (c.clearRun pass k).running = true) :
    ¬ c.ClearReturns ∧ ∀ j < k, ¬ c.ClearStops pass j := by
  have hne : ¬ c.ClearReturns := by
    intro hret
    have h0 : (c.clearRun pass 0).running = false := by simp [clearRun, hret]
    have hk := clearRun_add h0 k
    rw [Nat.zero_add] at hk
    rw [hk, h0] at h
    exact Bool.noConfusion h
  refine ⟨hne, fun j hj hs => ?_⟩
  obtain ⟨i, ⟨hi, hsi⟩, hmin⟩ := Nat.findX (p := fun j => j < k ∧ c.ClearStops pass j) ⟨j, hj, hs⟩
  have hfirst : ∀ l < i, ¬ c.ClearStops pass l := fun l hl hsl => hmin l hl ⟨hl.trans hi, hsl⟩
  have hstop := ((clearGoing_of_not_stops hr hne hfirst).stop hsi).1
  obtain ⟨m, rfl⟩ := Nat.exists_eq_add_of_le hi
  rw [Nat.succ_eq_add_one, clearRun_add hstop m, hstop] at h
  exact Bool.noConfusion h

/-- Every buffer that is handed over was handed over by a pass the call got to. -/
theorem handed_iff (hr : c.ringIdxToClear < c.ringNumElem) (P : Handing → Prop) :
    (∀ k, ∀ h ∈ (c.clearRun pass k).handed, P h) ↔
      ∀ j, (c.clearRun pass j).running = true → (pass j).elem.Filled →
        P ⟨(c.clearRun pass j).idx, (pass j).elem, (pass j).offered, c.loadedRead pass j,
          (c.clearRun pass j).lap⟩ := by
  constructor
  · intro h j hj hfilled
    obtain ⟨hne, hns⟩ := not_stops_of_running hr hj
    refine h (j + 1) _ ?_
    rw [(clearGoing_of_not_stops hr hne hns).handed, if_pos hfilled]
    exact List.mem_append_right _ (List.mem_singleton_self _)
  · intro h k
    induction k with
    | zero => exact fun h hm => absurd hm List.not_mem_nil
    | succ k ih =>
      intro x hx
      by_cases hrun : (c.clearRun pass k).running = true
      · obtain ⟨hne, hns⟩ := not_stops_of_running hr hrun
        rw [(clearGoing_of_not_stops hr hne hns).handed, List.mem_append] at hx
        rcases hx with hx | hx
        · exact ih x hx
        · split at hx
          · rename_i hfilled
            rw [List.mem_singleton] at hx
            exact hx ▸ h k hrun hfilled
          · exact absurd hx List.not_mem_nil
      · rw [clearRun_add (Bool.not_eq_true _ ▸ hrun) 1] at hx
        exact ih x hx

theorem clearTolerates_iff (hr : c.ringIdxToClear < c.ringNumElem) : c.ClearTolerates pass ↔ c.ClearSound pass := by
  rw [ClearTolerates, ClearSound, and_iff_right (clearRun_accessed hr), handed_iff hr]
  by_cases hne : c.ClearReturns
  · refine iff_of_true ⟨⟨0, by simp [clearRun, hne], Nat.zero_le _⟩, fun j hj _ => ?_⟩ (.inl hne)
    exact absurd hne (not_stops_of_running hr hj).1
  rw [or_iff_right hne]
  refine and_congr ?_ (forall_congr' fun j => ?_)
  · constructor
    · rintro ⟨k, hk, hle⟩
      have h : ∃ j, c.ClearStops pass j := by
        by_contra h
        rw [(clearGoing_of_not_stops hr hne fun j _ hs => h ⟨j, hs⟩).running] at hk
        exact Bool.noConfusion hk
      obtain ⟨j, hs, hmin⟩ := Nat.findX h
      have hjk : j < k := by
        by_contra hge
        rw [(clearGoing_of_not_stops hr hne fun i hi => hmin i (by omega)).running] at hk
        exact Bool.noConfusion hk
      obtain ⟨hstop, hpasses⟩ := (clearGoing_of_not_stops hr hne hmin).stop hs
      obtain ⟨m, rfl⟩ := Nat.exists_eq_add_of_le hjk
      rw [Nat.succ_eq_add_one, clearRun_add hstop m, hpasses] at hle
      exact ⟨j, hle, hs⟩
    · rintro ⟨l, hl, hsl⟩
      obtain ⟨j, hs, hmin⟩ := Nat.findX ⟨l, hsl⟩
      obtain ⟨hstop, hpasses⟩ := (clearGoing_of_not_stops hr hne hmin).stop hs
      have hjl : j ≤ l := not_lt.mp fun hlt => hmin l hlt hsl
      exact ⟨j + 1, hstop, by omega⟩
  · constructor
    · intro h hns hfilled
      have hdue := h (clearGoing_of_not_stops hr hne hns).running hfilled
      exact ⟨hdue.offered, hdue.inRing⟩
    · intro h hrun hfilled
      have hns := (not_stops_of_running hr hrun).2
      have hgo := clearGoing_of_not_stops hr hne hns
      obtain ⟨hoffered, hin⟩ := h hns hfilled
      exact ⟨hfilled, hoffered, hin, hgo.readIdx ▸ hgo.read⟩

end RingCtx

/-! ### The passes and the statements -/

/-- The statements of `A2f.process`, taken one after the other from the head of the loop, are a pass. -/
theorem A2f.process_pass {s : A2f} {idx : ℕ} (hc : s.call = .loop idx) (ok : Bool) (fresh : Option Packet)
    (accessed : List ℕ) :
    let r := ProcessRun.pass s.ring.ringNumElem ⟨idx, accessed, true⟩ ⟨s.ring.writeIdx, s.ring.elem idx, ok, fresh⟩
    ∃ k ≤ 4, ((fun s : A2f => s.process ok fresh)^[k] s).call = if r.running then .loop r.idx else .idle := by
  dsimp only [ProcessRun.pass]
  by_cases hw : idx = s.ring.writeIdx
  · refine ⟨1, by omega, ?_⟩
    simp [process, hc, ← hw]
  by_cases hf : (s.ring.elem idx).Filled
  · cases ok with
    | false =>
      refine ⟨2, by omega, ?_⟩
      simp [process, hc, hw, hf, ProcessPass.Fails]
    | true =>
      cases fresh with
      | none =>
        refine ⟨3, by omega, ?_⟩
        simp [process, hc, hw, hf, ProcessPass.Fails]
      | some p =>
        refine ⟨4, le_rfl, ?_⟩
        simp [process, hc, hw, hf, ProcessPass.Fails]
  · cases fresh with
    | none =>
      refine ⟨3, by omega, ?_⟩
      simp [process, hc, hw, hf, ProcessPass.Fails]
    | some p =>
      refine ⟨4, le_rfl, ?_⟩
      simp [process, hc, hw, hf, ProcessPass.Fails]

/-- The same for `F2a.clear`: the host acts between the clearing of the element and the next read of its index. -/
theorem F2a.clear_pass {s : F2a} {idx : ℕ} (hc : s.call = .loop idx) (ok offered : Bool) (k : ℕ) (x : ClearRun)
    (hidx : x.idx = idx) (hrun : x.running = true) :
    let s' := s.clear ok
    let r := ClearRun.pass s.ring.ringNumElem x ⟨s.ring.elem idx, offered, ok, (s'.host k).ring.readIdx⟩
    (if s'.call = .leave idx then s' else (s'.host k).clear ok).call = if r.running then .loop r.idx else .leave r.idx := by
  subst hidx
  dsimp only
  by_cases h : (s.ring.elem x.idx).Filled ∧ ok = true
  · obtain ⟨hf, rfl⟩ := h
    have hs : (s.clear true).call = .next ((x.idx + 1) % s.ring.ringNumElem) := by simp [clear, hc, hf]
    have hh : ((s.clear true).host k).call = (s.clear true).call := by rw [host]; split <;> rfl
    rw [if_neg (by rw [hs]; exact ClearCall.noConfusion), F2a.clear, hh, hs]
    simp only [ClearRun.pass, hrun, Bool.true_eq_false, if_false, if_pos hf, if_true]
    split
    · rename_i he
      simp [he]
    · rename_i he
      simp [he]
  · have hs : (s.clear ok).call = .leave x.idx := by simp only [clear, hc, if_neg h]
    rw [if_pos hs, hs]
    by_cases hf : (s.ring.elem x.idx).Filled
    · simp [ClearRun.pass, hrun, hf, show ok = false by simpa [hf] using h]
    · simp [ClearRun.pass, hrun, hf]

/-! ### Any index the host writes -/

/-- Exactly when the calls tolerate what the host writes: an A2F call meets the write index within a lap or is
    ended by a callback, and an F2A call meets its end within a lap and up to there finds the read index among the
    indices of the ring. -/
theorem tolerates_iff {a f : RingCtx} (ha : a.readIdx < a.ringNumElem) (hf : f.ringIdxToClear < f.ringNumElem)
    (process : ℕ → ProcessPass) (clear : ℕ → ClearPass) :
    (a.ProcessTolerates process ↔ a.ProcessEnds process) ∧ (f.ClearTolerates clear ↔ f.ClearSound clear) :=
  ⟨RingCtx.processTolerates_iff ha, RingCtx.clearTolerates_iff hf⟩

/-- A host that goes on from 3 to 5, and has read two elements from 1 on. -/
theorem tolerates_two :
    ({ RingCtx.createA2fRing 16 3 with writeIdx := 5 }.ProcessTolerates
      fun _ => ⟨5, ⟨16, 8, 0, 16⟩, true, some ⟨⟨32, 8, 0, 32⟩, by decide⟩⟩) ∧
    { RingCtx.createF2aRing 16 1 with writeIdx := 4, readIdx := 3 }.ClearTolerates
      fun _ => ⟨⟨16, 8, 0, 16⟩, true, true, 3⟩ := by
  have h := tolerates_iff (a := { RingCtx.createA2fRing 16 3 with writeIdx := 5 })
    (f := { RingCtx.createF2aRing 16 1 with writeIdx := 4, readIdx := 3 }) (by decide) (by decide)
    (fun _ => ⟨5, ⟨16, 8, 0, 16⟩, true, some ⟨⟨32, 8, 0, 32⟩, by decide⟩⟩)
    (fun _ => ⟨⟨16, 8, 0, 16⟩, true, true, 3⟩)
  refine ⟨h.1.mpr (.inr (.inl ⟨2, by decide, rfl⟩)), h.2.mpr (.inr ⟨⟨1, by decide, .inr (.inr rfl)⟩, ?_⟩)⟩
  intro j _ _
  exact ⟨rfl, by cases j <;> exact (by decide : 3 < 16)⟩

/-- The host writes 200 into the index of a ring of 16. -/
theorem index_200_not_tolerated :
    (¬ ∀ (a : RingCtx) (process : ℕ → ProcessPass), a.readIdx < a.ringNumElem → a.ProcessTolerates process) ∧
    ¬ ∀ (f : RingCtx) (clear : ℕ → ClearPass), f.ringIdxToClear < f.ringNumElem → f.ClearTolerates clear := by
  constructor
  · intro h
    have hends := (RingCtx.processTolerates_iff (by decide)).mp (h { RingCtx.createA2fRing 16 0 with writeIdx := 200 }
      (fun _ => ⟨200, ⟨16, 8, 0, 16⟩, true, some ⟨⟨32, 8, 0, 32⟩, by decide⟩⟩) (by decide))
    rcases hends with he | ⟨j, -, he⟩ | ⟨j, -, he⟩
    · exact absurd he (by decide)
    · have hlt := Nat.mod_lt (0 + j) (show 0 < 16 by decide)
      exact absurd (show 200 < 16 from he.trans_lt hlt) (by decide)
    · rcases he with ⟨-, he⟩ | he
      · exact Bool.noConfusion he
      · exact Option.some_ne_none _ he
  · intro h
    have hsound := (RingCtx.clearTolerates_iff (by decide)).mp
      (h { RingCtx.createF2aRing 16 0 with writeIdx := 3, readIdx := 200 }
        (fun _ => ⟨⟨16, 8, 0, 16⟩, true, true, 200⟩) (by decide))
    rcases hsound with hret | ⟨-, hdue⟩
    · exact absurd hret (by decide)
    · exact absurd (hdue 0 (fun i hi => absurd hi (Nat.not_lt_zero i)) (by decide)).2 (by decide)

end Qcc730.Ring
