import Qcc730.Timer.Order
import Qcc730.Lib.Phase

/-! One pass of `timer_process_active_timers`.

    The timers that are due are at the head of the list. Each of them expires; one that is reloaded goes back into the
    list, and the loop ends when it goes behind the current time. -/

namespace Qcc730.Timer

open Lib

variable {now fuel : ℕ}

namespace Timers

variable {s s' : Timers} {L log : List ℕ} {i : ℕ}

/-! ### The new expiry -/

/-- A period that is not 0, with a next point that the counter can reach, leads there. -/
theorem reloadExpiry_eq {e p : ℕ} (he : e ≤ now) (hp : 0 < p) (hfit : nextPoint e p now < 2 ^ 64) :
    reloadExpiry now e p = some (nextPoint e p now) := by
  have hone : e + p < 2 ^ 64 := add_le_nextPoint.trans_lt hfit
  have hlate : e < nextPoint e p now := he.trans_lt (lt_nextPoint hp)
  rw [reloadExpiry, Nat.mod_eq_of_lt hone]
  by_cases hle : e + p ≤ now
  · have hround := @nextPoint_eq_round e p now hp
    have hsum : now - e + (p - (now - e) % p) < 2 ^ 64 := by omega
    simp only [if_pos hle, if_neg hp.ne', Option.map_some, Nat.mod_eq_of_lt hsum, ← hround, Nat.mod_eq_of_lt hfit,
      if_pos hlate]
  · have hnext := nextPoint_of_lt he (Nat.lt_of_not_le hle)
    rw [hnext] at hlate ⊢
    simp only [if_neg hle, Option.map_some, if_pos hlate]

theorem reloadExpiry_lt {e p x : ℕ} (h : reloadExpiry now e p = some x) : x < 2 ^ 64 := by
  have hmod : ∀ n : ℕ, n % 2 ^ 64 < 2 ^ 64 := fun n => Nat.mod_lt n (by decide)
  obtain ⟨y, hy, rfl⟩ := Option.map_eq_some_iff.mp h
  split at hy
  · split at hy
    · cases hy
    · cases hy
      split
      · exact hmod _
      · exact hmod _
  · cases hy
    split
    · exact hmod _
    · exact hmod _

/-! ### The loop -/

/-- The loop of `timer_process_active_timers`, when the clock stands at `now`, with the timers that expired. -/
def processLoop (now : ℕ) : ℕ → Timers → Option (Timers × List ℕ)
  | 0, _ => none
  | fuel + 1, s =>
    match s.first with
    | none => some (s.processEnd, [])
    | some i =>
      if s.expires i then
        match s.processTimer i now with
        | none => none
        | some s =>
          if s.phase = .expiring then
            (processLoop now fuel { s.timetickGet now with phase := .looping }).map fun (s, log) => (s, i :: log)
          else processLoop now fuel s
      else some (s.processEnd, [])

/-- `timer_process_active_timers`, when the clock stands at `now` -/
def timerProcessActiveTimers (s : Timers) (now fuel : ℕ) : Option (Timers × List ℕ) :=
  processLoop now fuel { s.timetickGet now with processing := true, phase := .looping }

/-- The loop is at its end when the first timer is not due. -/
theorem processLoop_end (h : s.Inv L) (hend : ∀ i ∈ L.head?, ¬ s.expires i) :
    processLoop now (fuel + 1) s = some (s.processEnd, []) := by
  rw [processLoop, h.linked.doubly.first_eq]
  cases L with
  | nil => rfl
  | cons i L => exact if_neg (hend i rfl)

/-- Otherwise it expires, and the loop goes on. -/
theorem processLoop_next (h : s.Inv (i :: L)) (hi : s.expires i) :
    processLoop now (fuel + 1) s = (s.processTimer i now).bind fun s =>
      (processLoop now fuel { s.timetickGet now with phase := .looping }).map fun (s, log) => (s, i :: log) := by
  rw [processLoop, h.linked.doubly.first_eq, List.head?_cons]
  simp only [if_pos hi]
  cases hx : s.processTimer i now with
  | none => rfl
  | some x => exact if_pos (h.processTimer_spec hx).1

/-- The loop goes from one event of the timer task to the next. -/
theorem processLoop_run (h : s.Inv L) (hphase : s.phase = .looping) (hr : processLoop now fuel s = some (s', log)) :
    ∃ es, (∀ e ∈ es, e.ofProcess = true) ∧ Event.runAll s es = some s' := by
  induction fuel generalizing s L log with
  | zero => cases hr
  | succ fuel ih =>
    have hfirst := h.linked.doubly.first_eq
    by_cases hend : ∀ i ∈ L.head?, ¬ s.expires i
    · rw [processLoop_end h hend] at hr
      cases hr
      refine ⟨[.processNext now], by simp [Event.ofProcess], ?_⟩
      have hnext : (Event.processNext now).run s = some s.processEnd := by
        rw [Event.run, if_pos hphase, hfirst]
        cases L with
        | nil => rfl
        | cons i L => exact if_neg (hend i rfl)
      rw [Event.runAll, List.foldlM_cons, hnext]
      rfl
    · cases L with
      | nil => simp at hend
      | cons i L =>
        have hi : s.expires i := by simpa using hend
        rw [processLoop_next h hi] at hr
        obtain ⟨x, hx, hr⟩ := Option.bind_eq_some_iff.mp hr
        obtain ⟨⟨y, log'⟩, hy, heq⟩ := Option.map_eq_some_iff.mp hr
        cases heq
        obtain ⟨hexpiring, -, -, -, hinv⟩ := h.processTimer_spec hx
        obtain ⟨M, hM⟩ : ∃ M, x.Inv M := h.processTimer hfirst hx
        have hM' : Inv { x.timetickGet now with phase := .looping } M :=
          hM.congr (hM.linked.congr rfl rfl rfl rfl rfl fun _ _ => rfl) rfl rfl rfl rfl
        obtain ⟨es, hof, hes⟩ := ih hM' rfl hy
        refine ⟨.processNext now :: .resume now :: es, by simpa [Event.ofProcess] using hof, ?_⟩
        have hnext : (Event.processNext now).run s = some x := by
          rw [Event.run, if_pos hphase, hfirst]
          exact (if_pos hi).trans hx
        have hresume : (Event.resume now).run x = some { x.timetickGet now with phase := .looping } := by
          rw [Event.run, if_pos hexpiring]
        rw [Event.runAll, List.foldlM_cons, hnext]
        change List.foldlM _ x _ = _
        rw [List.foldlM_cons, hresume]
        exact hes

/-- The expiry of a timer is a value of the counter after the loop, too. -/
theorem processLoop_expiry_lt (h : s.Inv L) (hs : ∀ i, s.expiry i < 2 ^ 64)
    (hr : processLoop now fuel s = some (s', log)) : ∀ i, s'.expiry i < 2 ^ 64 := by
  induction fuel generalizing s L log with
  | zero => cases hr
  | succ fuel ih =>
    by_cases hend : ∀ i ∈ L.head?, ¬ s.expires i
    · rw [processLoop_end h hend] at hr
      cases hr
      rw [processEnd]
      cases s.first <;> exact hs
    · cases L with
      | nil => simp at hend
      | cons i L =>
        have hi : s.expires i := by simpa using hend
        rw [processLoop_next h hi] at hr
        obtain ⟨x, hx, hr⟩ := Option.bind_eq_some_iff.mp hr
        obtain ⟨⟨y, log'⟩, hy, heq⟩ := Option.map_eq_some_iff.mp hr
        cases heq
        have hkeep : ∀ {M}, x.Inv M → Inv { x.timetickGet now with phase := .looping } M := fun hM =>
          hM.congr (hM.linked.congr rfl rfl rfl rfl rfl fun _ _ => rfl) rfl rfl rfl rfl
        obtain ⟨-, -, -, -, ⟨-, hexpiry, hM⟩ | ⟨-, e, A, B, he, hexpiry, -, hM⟩⟩ := h.processTimer_spec hx
        · exact ih (hkeep hM) (fun j => (congrFun hexpiry j).trans_lt (hs j)) hy
        · refine ih (hkeep hM) (fun j => ?_) hy
          change x.expiry j < _
          rw [hexpiry]
          obtain rfl | hne := eq_or_ne j i
          · rw [Function.update_self]
            exact reloadExpiry_lt he
          · rw [Function.update_of_ne hne]
            exact hs j

/-! ### The timers that are due -/

/-- The timers of `L` that are due at `now`. -/
def due (s : Timers) (now : ℕ) (L : List ℕ) : List ℕ := L.filter fun i => s.expiry i ≤ now

/-- Each timer that is due and is reloaded has a period that is not 0, and the counter can reach the next point. -/
def Fits (s : Timers) (now : ℕ) (L : List ℕ) : Prop :=
  ∀ i ∈ s.due now L, s.reload i = true →
    0 < s.durationSclk i ∧ nextPoint (s.expiry i) (s.durationSclk i) now < 2 ^ 64

theorem mem_due : i ∈ s.due now L ↔ i ∈ L ∧ s.expiry i ≤ now := by simp [due]

/-- The timers that are due are at the head of the list. -/
theorem due_eq_cons {D : List ℕ} (hsorted : L.Pairwise fun a b => s.expiry a ≤ s.expiry b)
    (hD : s.due now L = i :: D) : ∃ M, L = i :: M ∧ s.due now M = D ∧ s.expiry i ≤ now := by
  have hi : i ∈ s.due now L := hD ▸ List.mem_cons_self
  cases L with
  | nil => cases hD
  | cons k M =>
    have hk : s.expiry k ≤ now := by
      obtain ⟨hmem, hle⟩ := mem_due.mp hi
      obtain rfl | hmem := List.mem_cons.mp hmem
      · exact hle
      · exact ((List.pairwise_cons.mp hsorted).1 i hmem).trans hle
    rw [due, List.filter_cons_of_pos (by simpa using hk)] at hD
    cases hD
    exact ⟨M, rfl, rfl, hk⟩

/-- What a pass does to the first timer, when it fits: it is not due any more, and the others are as before. -/
theorem processTimer_due {D : List ℕ} (h : s.Inv L) (ht : s.ticksNow = now) (hD : s.due now L = i :: D)
    (hfits : s.Fits now L) : ∃ s' M, s.processTimer i now = some s' ∧ s'.Inv M ∧ s'.due now M = D ∧
      (s.reload i = true → s'.expiry i = nextPoint (s.expiry i) (s.durationSclk i) now) ∧
      (s.reload i = false → s'.expiry i = s.expiry i) ∧ (∀ j ≠ i, s'.expiry j = s.expiry j) ∧
      s'.reload = s.reload ∧ s'.durationSclk = s.durationSclk := by
  obtain ⟨M, rfl, hM, hi⟩ := due_eq_cons h.linked.sorted hD
  have hiM : i ∉ M := (List.nodup_cons.mp h.linked.nodup).1
  have hfit : s.reload i = true → _ := hfits i (hD ▸ List.mem_cons_self)
  have hnew : s.reload i = true → reloadExpiry s.ticksNow (s.expiry i) (s.durationSclk i) =
      some (nextPoint (s.expiry i) (s.durationSclk i) now) := fun hreload => by
    rw [ht]
    exact reloadExpiry_eq hi (hfit hreload).1 (hfit hreload).2
  obtain ⟨s', hs'⟩ := h.processTimer_isSome now fun hreload => by rw [hnew hreload]; rfl
  obtain ⟨-, -, hreload', hduration, ⟨hreload, hexpiry, hinv⟩ | ⟨hreload, e, A, B, he, hexpiry, rfl, hinv⟩⟩ :=
    h.processTimer_spec hs'
  · refine ⟨s', M, hs', hinv, ?_, fun hr => ?_, fun _ => congrFun hexpiry i, fun j _ => congrFun hexpiry j, hreload',
      hduration⟩
    · rw [due, hexpiry]
      exact hM
    · cases hreload.symm.trans hr
  · obtain rfl : e = _ := Option.some.inj (he.symm.trans (hnew hreload))
    have hlate : ¬ nextPoint (s.expiry i) (s.durationSclk i) now ≤ now := Nat.not_le.mpr (lt_nextPoint (hfit hreload).1)
    have hother : ∀ j ≠ i, s'.expiry j = s.expiry j := fun j hne => by rw [hexpiry, Function.update_of_ne hne]
    have hsame : ∀ {C : List ℕ}, i ∉ C → (C.filter fun j => s'.expiry j ≤ now) = C.filter fun j => s.expiry j ≤ now :=
      fun hC => List.filter_congr fun j hj => by rw [hother j (ne_of_mem_of_not_mem hj hC)]
    refine ⟨s', A ++ i :: B, hs', hinv, ?_, fun _ => ?_, fun hr => ?_, hother, hreload', hduration⟩
    · rw [List.mem_append, not_or] at hiM
      rw [due, List.filter_append, List.filter_cons_of_neg, hsame hiM.1, hsame hiM.2, ← List.filter_append]
      · exact hM
      · rw [hexpiry, Function.update_self]
        simpa using hlate
    · rw [hexpiry, Function.update_self]
    · cases hreload.symm.trans hr

/-- With such timers the loop goes through those that are due, and each one that is reloaded goes to its next point. -/
theorem processLoop_due {D : List ℕ} (hnow : now < 2 ^ 64) (h : s.Inv L) (ht : s.ticksNow = now) (hD : s.due now L = D)
    (hfits : s.Fits now L) : ∃ s', processLoop now (D.length + 1) s = some (s', D) ∧
      (∀ i ∈ D, s.reload i = true → s'.expiry i = nextPoint (s.expiry i) (s.durationSclk i) now) ∧
      ∀ i ∉ D, s'.expiry i = s.expiry i := by
  have hexpires : ∀ i, s.expires i ↔ s.expiry i ≤ now := fun i => by
    rw [expires, ht, timerEarlyTol, Nat.add_zero, Nat.mod_eq_of_lt hnow]
  induction D generalizing s L with
  | nil =>
    refine ⟨s.processEnd, processLoop_end h fun i hi hexp => ?_, by simp, fun i _ => ?_⟩
    · have : i ∈ s.due now L := mem_due.mpr ⟨List.mem_of_mem_head? hi, (hexpires i).mp hexp⟩
      rw [hD] at this
      cases this
    · rw [processEnd]
      cases s.first <;> rfl
  | cons i D ih =>
    obtain ⟨x, M, hx, hinv, hdue, hnew, -, hother, hreload, hduration⟩ := processTimer_due h ht hD hfits
    obtain ⟨N, rfl, hN, hi⟩ := due_eq_cons h.linked.sorted hD
    have hiD : i ∉ D := fun hmem => (List.nodup_cons.mp h.linked.nodup).1 (mem_due.mp (hN ▸ hmem)).1
    have hx' : Inv { x.timetickGet now with phase := .looping } M :=
      hinv.congr (hinv.linked.congr rfl rfl rfl rfl rfl fun _ _ => rfl) rfl rfl rfl rfl
    have hfits' : Fits { x.timetickGet now with phase := .looping } now M := fun j hj hr => by
      change x.reload j = true at hr
      change j ∈ x.due now M at hj
      change 0 < x.durationSclk j ∧ nextPoint (x.expiry j) (x.durationSclk j) now < 2 ^ 64
      rw [hdue] at hj
      rw [hreload] at hr
      rw [hduration, hother j (ne_of_mem_of_not_mem hj hiD)]
      exact hfits j (hD ▸ List.mem_cons_of_mem i hj) hr
    obtain ⟨s', hs', hpoint, hkeep⟩ := ih hx' rfl hdue hfits' fun j => by
      change x.expiry j ≤ (now + timerEarlyTol) % 2 ^ 64 ↔ _
      rw [timerEarlyTol, Nat.add_zero, Nat.mod_eq_of_lt hnow]
      rfl
    refine ⟨s', ?_, fun j hj hr => ?_, fun j hj => ?_⟩
    · rw [List.length_cons, processLoop_next h ((hexpires i).mpr hi), hx]
      exact congrArg (Option.map _) hs'
    · obtain rfl | hj := List.mem_cons.mp hj
      · rw [hkeep j hiD]
        exact hnew hr
      · have hne : j ≠ i := ne_of_mem_of_not_mem hj hiD
        rw [hpoint j hj (by rw [← hr, ← hreload]; rfl), ← hother j hne, ← hduration]
        rfl
    · rw [List.mem_cons, not_or] at hj
      rw [hkeep j hj.2]
      exact hother j hj.1

/-! ### The pass -/

/-- The pass comes to its end, each timer that is due expires once and no other one, and each one that is reloaded goes
    to its next point. -/
def Processes (s : Timers) (L : List ℕ) (now : ℕ) : Prop :=
  ∃ fuel s', s.timerProcessActiveTimers now fuel = some (s', s.due now L) ∧
    ∀ i ∈ s.due now L, s.reload i = true → IsNextPoint (s.expiry i) (s.durationSclk i) now (s'.expiry i)

/-- The state in which the loop begins. -/
theorem Inv.begin (h : s.Inv L) (now : ℕ) : Inv { s.timetickGet now with processing := true, phase := .looping } L :=
  h.congr (h.linked.congr rfl rfl rfl rfl rfl fun _ _ => rfl) rfl rfl rfl rfl

theorem Fits.processes (hfits : s.Fits now L) (h : s.Inv L) (hnow : now < 2 ^ 64) : s.Processes L now := by
  obtain ⟨s', hs', hpoint, -⟩ := processLoop_due hnow (h.begin now) rfl rfl hfits
  refine ⟨_, s', hs', fun i hi hreload => ?_⟩
  exact (isNextPoint_iff (hfits i hi hreload).1).mpr (hpoint i hi hreload)

theorem Processes.fits (hs : s.Processes L now) (h : s.Inv L) (hexpiry : ∀ i, s.expiry i < 2 ^ 64) :
    s.Fits now L := by
  obtain ⟨fuel, s', hs', hpoint⟩ := hs
  intro i hi hreload
  have hnext := hpoint i hi hreload
  have hpos := hnext.pos (mem_due.mp hi).2
  refine ⟨hpos, ?_⟩
  rw [← (isNextPoint_iff hpos).mp hnext]
  exact processLoop_expiry_lt (h.begin now) hexpiry hs' i

/-- The pass is a run of the events of the timer task. -/
theorem timerProcessActiveTimers_run (h : s.Inv L) (hphase : s.phase = .idle)
    (hr : s.timerProcessActiveTimers now fuel = some (s', log)) :
    ∃ es, (∀ e ∈ es, e.ofProcess = true) ∧ Event.runAll s es = some s' := by
  obtain ⟨es, hof, hes⟩ := processLoop_run (h.begin now) rfl hr
  refine ⟨.processStart now :: es, by simpa [Event.ofProcess] using hof, ?_⟩
  have hstart : (Event.processStart now).run s = some { s.timetickGet now with processing := true, phase := .looping } := by
    rw [Event.run, if_pos hphase]
  rw [Event.runAll, List.foldlM_cons, hstart]
  exact hes

/-- A pass of `timer_process_active_timers` does what it is for if and only if each timer that is due and is reloaded
    has a period that is not 0, and the counter can reach its next point. -/
theorem process_active_timers_iff (s : Timers) (L : List ℕ) (now : ℕ) (h : s.Inv L) (hnow : now < 2 ^ 64)
    (hexpiry : ∀ i, s.expiry i < 2 ^ 64) : s.Processes L now ↔ s.Fits now L :=
  ⟨fun hs => hs.fits h hexpiry, fun hfits => hfits.processes h hnow⟩

/-- The task 7 defines a timer and sets it, to be reloaded. -/
theorem inv_set_one {time t e : ℕ} (hs : Event.runAll (Timers.init fun _ => 0)
    [.define 1 (some 3) (some 7), .set 1 7 time true .tick t t] = some s) (hfirst : s.first = some 0)
    (hnext : s.next 0 = none) (he : s.expiry = Function.update (Function.update (fun _ => 0) 0 0) 0 e)
    (hlt : e < 2 ^ 64) : s.Inv [0] ∧ ∀ i, s.expiry i < 2 ^ 64 := by
  have h₁ : Reach Event.AptStep (Timers.init fun _ => 0) _ :=
    .one ⟨.define 1 (some 3) (some 7), fun i hi => by simp [Timers.timerGetClientTimer, Timers.init, timerHandleToIndex,
      timerMagic] at hi, rfl⟩
  have h₂ := h₁.tail ⟨.set 1 7 time true .tick t t, fun i hi _ owner ho => by cases hi; cases ho; rfl, hs⟩
  obtain ⟨L, hinv⟩ := Inv.reach h₂
  have hL : L = [0] := Path.unique hinv.linked.doubly.1 ⟨hfirst, hnext⟩
  refine ⟨hL ▸ hinv, fun i => ?_⟩
  rw [he]
  obtain rfl | hne := eq_or_ne i 0
  · rwa [Function.update_self]
  · rw [Function.update_of_ne hne, Function.update_of_ne hne]
    decide

/-- A pass at 350 over a timer that is due since 100. -/
theorem timerProcessActiveTimers_run_one : ∃ s, Event.runAll (Timers.init fun _ => 0)
    [.define 1 (some 3) (some 7), .set 1 7 100 true .tick 0 0] = some s ∧
      ∃ fuel s' log, s.timerProcessActiveTimers 350 fuel = some (s', log) ∧
        ∃ es, (∀ e ∈ es, e.ofProcess = true) ∧ Event.runAll s es = some s' := by
  refine ⟨_, rfl, ?_⟩
  obtain ⟨hinv, -⟩ := @inv_set_one _ 100 0 100 rfl rfl rfl rfl (by decide)
  have hprocesses : Processes _ [0] 350 := Fits.processes (fun i hi _ => by
    obtain rfl : i = 0 := by simpa using (mem_due.mp hi).1
    exact ⟨by decide, by decide⟩) hinv (by decide)
  obtain ⟨fuel, s', hrun, -⟩ := hprocesses
  exact ⟨fuel, s', _, hrun, timerProcessActiveTimers_run hinv rfl hrun⟩

/-- A timer with a period of 100 that is due since 100 goes to 400 at 350. -/
theorem process_active_timers_one : ∃ s, Event.runAll (Timers.init fun _ => 0)
    [.define 1 (some 3) (some 7), .set 1 7 100 true .tick 0 0] = some s ∧ s.Processes [0] 350 := by
  refine ⟨_, rfl, ?_⟩
  obtain ⟨hinv, hlt⟩ := @inv_set_one _ 100 0 100 rfl rfl rfl rfl (by decide)
  refine (process_active_timers_iff _ [0] 350 hinv (by decide) hlt).mpr fun i hi _ => ?_
  obtain rfl : i = 0 := by simpa using (mem_due.mp hi).1
  exact ⟨by decide, by decide⟩

/-- A period of 0 leads to a division by 0. A timer whose next point is out of reach goes back to a time before, and is
    due again. -/
theorem process_active_timers_stuck :
    (∃ s, Event.runAll (Timers.init fun _ => 0) [.define 1 (some 3) (some 7), .set 1 7 0 true .tick 10 10] = some s ∧
      s.Inv [0] ∧ ¬ s.Processes [0] 10 ∧ s.processTimer 0 10 = none) ∧
    ∃ s, Event.runAll (Timers.init fun _ => 0)
        [.define 1 (some 3) (some 7), .set 1 7 (2 ^ 64 - 1) true .tick 10 10] = some s ∧
      s.Inv [0] ∧ ¬ s.Processes [0] 10 ∧ ∃ s', s.processTimer 0 10 = some s' ∧ s'.first = some 0 ∧ s'.expiry 0 = 9 := by
  obtain ⟨hinv, hlt⟩ := @inv_set_one _ 0 10 10 rfl rfl rfl rfl (by decide)
  obtain ⟨hinv', hlt'⟩ := @inv_set_one _ (2 ^ 64 - 1) 10 9 rfl rfl rfl rfl (by decide)
  refine ⟨⟨_, rfl, hinv, fun hs => ?_, rfl⟩, _, rfl, hinv', fun hs => ?_, _, rfl, rfl, rfl⟩
  · exact absurd (hs.fits hinv hlt 0 (by decide) rfl).1 (by decide)
  · exact absurd (hs.fits hinv' hlt' 0 (by decide) rfl).2 (by decide)

end Timers

end Qcc730.Timer
