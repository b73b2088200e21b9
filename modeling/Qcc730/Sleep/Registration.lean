import Qcc730.Lib.Reach
import Qcc730.Sleep.Order

/-! Registering a sleeper and removing one.

    A sleeper is removed by walking through the list to the entry before it. A new one gets the index behind the
    last that was given out, and the count of these goes up before it is known whether the call can be served. -/

namespace Qcc730.Sleep

open Lib

namespace Soc

variable {s s' : Soc} {L : List ℕ} {i : ℕ}

/-! ### Removing -/

/-- The loop of `nt_socpm_sleep_lst_delete` for an entry that is not the head, as far as it gets in so many passes.
    `ptmp` stays where it is. -/
def deleteLoop (i : ℕ) : ℕ → Soc → ℕ → Option Soc
  | 0, _, _ => none
  | fuel + 1, s, ptmp =>
    match s.next ptmp with
    | none => some s
    | some n => if n = i then some ((s.setNext ptmp (s.next i)).setNext i none) else deleteLoop i fuel s ptmp

/-- `nt_socpm_sleep_lst_delete`, in so many passes of its loop. -/
def lstDeleteWithin (fuel : ℕ) (s : Soc) (i : ℕ) : Option Soc :=
  if i ≥ socpmSlpLstSz then some s
  else
    let s := { s.slptmrOff with registered := Function.update s.registered i false }
    match s.slpLstHead with
    | none => some s
    | some h =>
      let s := s.setSlpTime i 0
      if h = i then
        let s := s.listSearch h
        match s.slpLstHead with
        | none => some s
        | some n => some (if s.slpTime n > 0 then s.slpTmrSet (s.slpTime n) else s)
      else deleteLoop i fuel s h

/-- The first pass of the loop decides. -/
theorem deleteLoop_eq (fuel : ℕ) :
    deleteLoop i (fuel + 1) = fun s h =>
      match s.next h with
      | none => some s
      | some n => if n = i then some ((s.setNext h (s.next i)).setNext i none) else none := by
  funext s h
  induction fuel with
  | zero =>
    rw [deleteLoop]
    rfl
  | succ fuel ih =>
    rw [deleteLoop, ih]
    cases s.next h with
    | none => rfl
    | some n => by_cases hn : n = i <;> simp [hn]

theorem lstDeleteWithin_eq (fuel : ℕ) : s.lstDeleteWithin (fuel + 1) i = s.lstDelete i := by
  rw [lstDeleteWithin, deleteLoop_eq]
  rfl

theorem lstDeleteWithin_none {k n : ℕ} (h : s.Lists (k :: n :: L)) (hi : i < socpmSlpLstSz) (hk : i ≠ k) (hn : i ≠ n)
    (fuel : ℕ) : s.lstDeleteWithin fuel i = none := by
  cases fuel with
  | succ fuel => exact (lstDeleteWithin_eq fuel).trans (lstDelete_none h hi hk hn)
  | zero =>
    rw [lstDeleteWithin, if_neg (not_le.mpr hi)]
    simp only [slptmrOff, h.1, if_neg hk.symm]
    rfl

/-- The entry `i` is gone from the list `L`; the others are what they were, in their order. -/
def Removed (s : Soc) (L : List ℕ) (i : ℕ) (s' : Soc) : Prop := s'.Lists (L.erase i) ∧ s.Erased i s'

/-- A removal ends, and with the entry removed, iff the list has at most one entry or the one to be removed is among
    the first two. -/
theorem removal_ends_iff (h : s.Lists L) (hi : i < socpmSlpLstSz) :
    (∃ fuel s', s.lstDeleteWithin fuel i = some s' ∧ s.Removed L i s') ↔ L.length ≤ 1 ∨ i ∈ L.take 2 := by
  constructor
  · rintro ⟨fuel, s', hs', -⟩
    by_contra hnot
    match L, h with
    | [], _ | [_], _ => simp at hnot
    | k :: n :: L, h =>
      simp only [List.take_succ_cons, List.take_zero, List.mem_cons, List.not_mem_nil, or_false, not_or] at hnot
      rw [lstDeleteWithin_none h hi hnot.2.1 hnot.2.2] at hs'
      cases hs'
  · intro hfew
    obtain ⟨s', hs', herased, hl, -, -⟩ := lstDelete_lists h hi hfew
    exact ⟨1, s', (lstDeleteWithin_eq 0).trans hs', hl, herased⟩

/-- The second of two sleepers is removed. -/
theorem removal_ends_second :
    ∃ s, Event.runAll (.init 0 5 false) [.register (some (.plain 10)) none 0 still, .register (some (.plain 20)) none 0 still] =
      some s ∧ ∃ fuel s', s.lstDeleteWithin fuel 1 = some s' ∧ s.Removed [0, 1] 1 s' := by
  have hlists : ∀ {s : Soc}, s.slpLstHead = some 0 ∧ s.next 0 = some 1 ∧ s.next 1 = none → s.Lists [0, 1] := fun h => h
  exact ⟨_, rfl, (removal_ends_iff (hlists ⟨rfl, rfl, rfl⟩) (by decide)).mpr (.inr (by decide))⟩

/-- The third of three sleepers is not: the loop looks at the second one for ever. -/
theorem third_not_removed :
    ∃ s, Event.runAll (.init 0 5 false) [.register (some (.plain 10)) none 0 still, .register (some (.plain 20)) none 0 still,
      .register (some (.plain 30)) none 0 still] = some s ∧ s.Lists [0, 1, 2] ∧ ∀ fuel, s.lstDeleteWithin fuel 2 = none := by
  have hlists : ∀ {s : Soc}, s.slpLstHead = some 0 ∧ s.next 0 = some 1 ∧ s.next 1 = some 2 ∧ s.next 2 = none →
      s.Lists [0, 1, 2] := fun h => h
  refine ⟨_, rfl, hlists ⟨rfl, rfl, rfl, rfl⟩, lstDeleteWithin_none (hlists ⟨rfl, rfl, rfl, rfl⟩) ?_ ?_ ?_⟩
  all_goals decide

end Soc

/-! ### Registering -/

/-- A call of `nt_socpm_sleep_register`, the time at which it is made and by how much the clock goes on before each of
    its looks at it. -/
structure RegisterCall where
  slpInfo : Option SleepInfo
  listIdx : Option ℕ
  offset : ℕ
  now : ℕ
  goesOn : ℕ → ℕ

/-- Between two calls: the module, the indices that were returned, and whether a call did not return. -/
structure Registry where
  soc : Soc
  returned : List ℕ
  stuck : Bool

def Registry.init (suppMinMs now : ℕ) (inWarmBoot : Bool) : Registry := ⟨.init suppMinMs now inWarmBoot, [], false⟩

namespace RegisterCall

def run (c : RegisterCall) (s : Soc) : Option (Soc × Option ℕ) :=
  { s with now := c.now }.sleepRegister c.slpInfo c.listIdx c.offset c.goesOn

/-- After a call that does not return there is no other. -/
def act (r : Registry) (c : RegisterCall) : Registry :=
  if r.stuck then r
  else
    match c.run r.soc with
    | none => { r with stuck := true }
    | some (s, i) => { r with soc := s, returned := i.toList ++ r.returned }

/-- The entries that a call looks at or writes: the last one for its `list_no`, the head, the one it is for, if that is
    in the table, and those that the links of these lead to. -/
inductive Touches (s : Soc) (c : RegisterCall) : ℕ → Prop where
  | last {k : ℕ} (hidx : c.listIdx = none) (hk : s.lastSlpCount = some k) : Touches s c k
  | head {h : ℕ} (hh : s.slpLstHead = some h) : Touches s c h
  | entry (hinfo : c.slpInfo.isSome) (hi : s.target c.listIdx < socpmSlpLstSz) : Touches s c (s.target c.listIdx)
  | link {j k : ℕ} (hj : Touches s c j) (hk : s.next j = some k) : Touches s c k

/-- A call is bounded and fails cleanly. -/
structure Clean (r : Registry) (c : RegisterCall) : Prop where
  inTable : ∀ j, Touches r.soc c j → j < socpmSlpLstSz
  count : ∀ s i, c.run r.soc = some (s, i) → ∀ k ∈ s.lastSlpCount, k < socpmSlpLstSz
  fresh : ∀ s i, c.run r.soc = some (s, some i) → c.listIdx = none → i ∉ r.returned
  unchanged : ∀ s, c.run r.soc = some (s, none) → s = { r.soc with now := c.now }

def CleanAt (r : Registry) (c : RegisterCall) : Prop := r.stuck = false → Clean r c

def Returns (r : Registry) (c : RegisterCall) : Prop := r.stuck = false → (c.run r.soc).isSome

/-- A call without an index for which the index comes out right: there is information about the sleep, room for an
    entry, and the index that follows was not returned to someone who gave it. -/
def Fits (r : Registry) (c : RegisterCall) : Prop :=
  r.stuck = false → c.listIdx = none →
    match r.soc.lastSlpCount with
    | none => c.slpInfo = none ∨ 0 ∉ r.returned
    | some k => c.slpInfo ≠ none ∧ k + 1 < socpmSlpLstSz ∧ k + 1 ∉ r.returned

end RegisterCall

/-! ### Links within the table -/

namespace Soc

variable {s s' : Soc} {i : ℕ}

structure InTable (s : Soc) : Prop where
  head : ∀ h ∈ s.slpLstHead, h < socpmSlpLstSz
  next : ∀ j, ∀ k ∈ s.next j, k < socpmSlpLstSz

theorem InTable.congr (h : s.InTable) (hn : s'.next = s.next) (hh : s'.slpLstHead = s.slpLstHead) : s'.InTable where
  head := by
    rw [hh]
    exact h.head
  next := by
    rw [hn]
    exact h.next

theorem InTable.arm (h : s.InTable) : s.arm.InTable := h.congr arm_next.1 arm_next.2

theorem InTable.setNext {p : Option ℕ} (h : s.InTable) (hp : ∀ k ∈ p, k < socpmSlpLstSz) : (s.setNext i p).InTable where
  head := h.head
  next j := by
    by_cases hj : j = i
    · simpa [Soc.setNext, hj] using hp
    · simpa [Soc.setNext, hj] using h.next j

theorem InTable.setHead (h : s.InTable) (hi : i < socpmSlpLstSz) : { s with slpLstHead := some i }.InTable where
  head := by simpa using hi
  next := h.next

theorem InTable.listSearch (h : s.InTable) : (s.listSearch i).InTable := by
  rw [Soc.listSearch]
  split
  · exact ⟨by simp, h.next⟩
  · rename_i n hn
    exact (h.setNext (by simp)).setHead (h.next i n hn)

theorem listSearch_data : s.SameData (s.listSearch i) := by
  rw [listSearch]
  split
  · exact ⟨_, _, _, _, rfl⟩
  · exact ⟨_, _, _, _, rfl⟩

/-- Whatever the links are like, `nt_socpm_sleep_lst_reorder` changes nothing but these, and none leads out of the
    table. -/
theorem lstReorder_frame (h : s.InTable) (hi : i < socpmSlpLstSz) (hs' : s.lstReorder i = some s') :
    s.SameData s' ∧ s'.InTable := by
  have hfirst : s.SameData (if s.slpLstHead = some i then s.listSearch i else s) ∧
      (if s.slpLstHead = some i then s.listSearch i else s).InTable := by
    split
    · exact ⟨listSearch_data, h.listSearch⟩
    · exact ⟨⟨_, _, _, _, rfl⟩, h⟩
  rw [lstReorder] at hs'
  generalize (if s.slpLstHead = some i then s.listSearch i else s) = t at hfirst hs'
  obtain ⟨hd, ht⟩ := hfirst
  have hsetNext : ∀ {u : Soc} {j p}, s.SameData u → s.SameData (u.setNext j p) :=
    fun hu => hu.trans ⟨_, _, _, _, rfl⟩
  have hsetHead : ∀ {u : Soc} {p}, s.SameData u → s.SameData { u with slpLstHead := p } :=
    fun hu => hu.trans ⟨_, _, _, _, rfl⟩
  have hin : ∀ k ∈ some i, k < socpmSlpLstSz := by simpa using hi
  cases hhead : t.slpLstHead with
  | none =>
    simp only [hhead, Option.some.injEq] at hs'
    subst hs'
    exact ⟨(hsetHead hd).arm, (ht.setHead hi).arm⟩
  | some k =>
    simp only [hhead] at hs'
    split at hs'
    · obtain rfl := Option.some.inj hs'
      have hnext : s.SameData (if t.next k = some i then t.setNext k none else t) ∧
          (if t.next k = some i then t.setNext k none else t).InTable := by
        split
        · exact ⟨hsetNext hd, ht.setNext (by simp)⟩
        · exact ⟨hd, ht⟩
      refine ⟨(hsetHead (hsetNext hnext.1)).arm, ((hnext.2.setNext ?_).setHead hi).arm⟩
      simpa using ht.head k hhead
    · split at hs'
      · cases hs'
      · obtain rfl := Option.some.inj hs'
        exact ⟨hsetNext (hsetNext hd), (ht.setNext hin).setNext (ht.next _)⟩
      · obtain rfl := Option.some.inj hs'
        split
        · exact ⟨(hsetNext hd).arm, (ht.setNext hin).arm⟩
        · exact ⟨hd.arm, ht.arm⟩

/-- Without callbacks an update only changes times. -/
theorem updateEntry_times {t d : ℕ} {x : Soc × Bool} (hx : s.updateEntry t d false i = some x) :
    ∃ f g c, x.1 = (s.retime f g).setNow c := by
  simp only [updateEntry, Bool.false_eq_true, and_false, if_false] at hx
  split at hx
  · cases hx
    exact ⟨_, _, _, rfl⟩
  · cases hx
    exact ⟨s.slpTime, s.startTimeUs, s.now, rfl⟩

theorem updateFrom_times {t fuel : ℕ} {d : ℕ → ℕ} {p : Option ℕ} {other : Bool} {x : Soc × Bool}
    (hx : updateFrom false t fuel d s p other = some x) : ∃ f g c, x.1 = (s.retime f g).setNow c := by
  induction fuel generalizing s p other d with
  | zero =>
    cases p with
    | none =>
      cases hx
      exact ⟨s.slpTime, s.startTimeUs, s.now, rfl⟩
    | some i => cases hx
  | succ fuel ih =>
    cases p with
    | none =>
      cases hx
      exact ⟨s.slpTime, s.startTimeUs, s.now, rfl⟩
    | some i =>
      simp only [updateFrom] at hx
      split at hx
      · cases hx
        exact ⟨s.slpTime, s.startTimeUs, s.now, rfl⟩
      · cases hu : s.updateEntry t (d 0) false i with
        | none => simp [hu] at hx
        | some u =>
          obtain ⟨f, g, c, hu'⟩ := updateEntry_times hu
          simp only [hu] at hx
          obtain ⟨f', g', c', hx'⟩ := ih hx
          rw [hx', hu']
          exact ⟨f', g', c', rfl⟩

/-- What a registration that returns has done to the count, the numbers and the links. -/
theorem enter_frame {info : SleepInfo} {offset : ℕ} {d : ℕ → ℕ} (h : s.InTable) (hi : i < socpmSlpLstSz)
    (hs' : s.enter info i offset d = some s') :
    s'.InTable ∧ s'.lastSlpCount = s.lastSlpCount ∧ s'.listNo = Function.update s.listNo i i := by
  have hend : ∀ {t : Soc}, t.InTable → t.lastSlpCount = s.lastSlpCount → t.listNo = Function.update s.listNo i i →
      t.lstReorder i = some s' →
      s'.InTable ∧ s'.lastSlpCount = s.lastSlpCount ∧ s'.listNo = Function.update s.listNo i i := by
    intro t ht hcount hno hre
    obtain ⟨⟨_, _, _, _, rfl⟩, hin⟩ := lstReorder_frame ht hi hre
    exact ⟨hin, hcount, hno⟩
  simp only [enter] at hs'
  split at hs'
  · exact hend (t := (s.setNow (s.now + d 0)).setInfo info i offset) (h.congr rfl rfl) rfl rfl hs'
  · cases hu : ((s.setNow (s.now + d 0)).setInfo info i offset).lstUpdate (fun n => d (n + 1)) false with
    | none => simp [hu] at hs'
    | some u =>
      obtain ⟨f, g, c, hu'⟩ := updateFrom_times hu
      simp only [hu] at hs'
      refine hend (t := u.1) (h.congr ?_ ?_) ?_ ?_ hs'
      all_goals
        rw [hu']
        rfl

end Soc

/-! ### Runs of calls -/

/-- The number of the last entry is its index. -/
structure Counted (s : Soc) : Prop where
  inTable : s.InTable
  count : ∀ k ∈ s.lastSlpCount, k < socpmSlpLstSz ∧ s.listNo k = k

namespace RegisterCall

variable {s s' : Soc} {r : Registry} {c : RegisterCall}

/-- `_socpm_last_slp_count` when the call returns. -/
def countAfter (s : Soc) (c : RegisterCall) : Option ℕ :=
  match c.listIdx, s.lastSlpCount with
  | some _, k => k
  | none, some k => some (k + 1)
  | none, none => c.slpInfo.map fun _ => 0

/-- What a call that was rejected has done. -/
structure Rejected (s : Soc) (c : RegisterCall) (s' : Soc) (i : Option ℕ) : Prop where
  result : i = none
  reason : c.slpInfo = none ∨ socpmSlpLstSz ≤ s.target c.listIdx
  state : s' = { s with now := c.now, lastSlpCount := c.countAfter s }

/-- What a call that was served has done. -/
structure Served (s : Soc) (c : RegisterCall) (s' : Soc) (i : Option ℕ) : Prop where
  result : i = some (s.target c.listIdx)
  info : c.slpInfo ≠ none
  inTable : s.target c.listIdx < socpmSlpLstSz
  links : s'.InTable
  count : s'.lastSlpCount = c.countAfter s
  number : s'.listNo = Function.update s.listNo (s.target c.listIdx) (s.target c.listIdx)

theorem update_cases {info : Option SleepInfo} {i offset : ℕ} {d : ℕ → ℕ} {res : Option ℕ} (h : s.InTable)
    (hs' : s.update info i offset d = some (s', res)) :
    (res = none ∧ (info = none ∨ socpmSlpLstSz ≤ i) ∧ s' = s) ∨
    (res = some i ∧ info ≠ none ∧ i < socpmSlpLstSz ∧ s'.InTable ∧ s'.lastSlpCount = s.lastSlpCount ∧
      s'.listNo = Function.update s.listNo i i) := by
  cases info with
  | none =>
    cases hs'
    exact .inl ⟨rfl, .inl rfl, rfl⟩
  | some info =>
    simp only [Soc.update] at hs'
    split at hs'
    · rename_i hi
      obtain ⟨u, hu, heq⟩ := Option.map_eq_some_iff.mp hs'
      cases heq
      exact .inr ⟨rfl, Option.some_ne_none _, hi, Soc.enter_frame h hi hu⟩
    · rename_i hi
      cases hs'
      exact .inl ⟨rfl, .inr (not_lt.mp hi), rfl⟩

theorem register_next {info : Option SleepInfo} {offset k : ℕ} {d : ℕ → ℕ} (hlast : s.lastSlpCount = some k)
    (hk : k < socpmSlpLstSz) :
    s.sleepRegister info none offset d =
      (s.update info (s.listNo k + 1) offset d).map fun (s, i) => ({ s with lastSlpCount := some (k + 1) }, i) := by
  simp only [Soc.sleepRegister, hlast, if_pos hk]

theorem register_first {info : SleepInfo} {offset : ℕ} {d : ℕ → ℕ} (hlast : s.lastSlpCount = none) :
    s.sleepRegister (some info) none offset d =
      ({ s.setNext 0 none with lastSlpCount := some 0 }.enter info 0 offset d).map fun s => (s, some 0) := by
  simp only [Soc.sleepRegister, hlast]

/-- A call that returns was rejected or served. -/
theorem run_cases {i : Option ℕ} (h : Counted s) (hrun : c.run s = some (s', i)) :
    Rejected s c s' i ∨ Served s c s' i := by
  obtain ⟨info, idx, offset, now, d⟩ := c
  have hin : { s with now := now }.InTable := h.inTable.congr rfl rfl
  simp only [run] at hrun
  cases idx with
  | some j =>
    obtain ⟨hres, hwhy, rfl⟩ | ⟨hres, hinfo, hj, hlinks, hcount, hno⟩ := update_cases hin hrun
    · exact .inl ⟨hres, hwhy, rfl⟩
    · exact .inr ⟨hres, hinfo, hj, hlinks, hcount, hno⟩
  | none =>
    cases hlast : s.lastSlpCount with
    | some k =>
      have hk := (h.count k hlast).1
      rw [register_next (s := { s with now := now }) hlast hk] at hrun
      obtain ⟨⟨u, j⟩, hu, heq⟩ := Option.map_eq_some_iff.mp hrun
      cases heq
      have htarget : s.target none = s.listNo k + 1 := by simp only [Soc.target, hlast]
      obtain ⟨hres, hwhy, rfl⟩ | ⟨hres, hinfo, hj, hlinks, -, hno⟩ := update_cases hin hu
      · refine .inl ⟨hres, htarget ▸ hwhy, ?_⟩
        simp only [countAfter, hlast]
      · refine .inr ⟨htarget ▸ hres, hinfo, htarget ▸ hj, hlinks.congr rfl rfl, ?_, htarget ▸ hno⟩
        simp only [countAfter, hlast]
    | none =>
      have htarget : s.target none = 0 := by simp only [Soc.target, hlast]
      cases info with
      | none =>
        simp only [Soc.sleepRegister, hlast, Option.some.injEq, Prod.mk.injEq] at hrun
        obtain ⟨rfl, rfl⟩ := hrun
        refine .inl ⟨rfl, .inl rfl, ?_⟩
        simp only [countAfter, hlast, Option.map_none]
      | some info =>
        rw [register_first (s := { s with now := now }) hlast] at hrun
        obtain ⟨u, hu, heq⟩ := Option.map_eq_some_iff.mp hrun
        cases heq
        have hin' : { { s with now := now }.setNext 0 none with lastSlpCount := some 0 }.InTable :=
          (hin.setNext (i := 0) (p := none) (by simp)).congr rfl rfl
        obtain ⟨hlinks, hcount, hno⟩ := Soc.enter_frame hin' (by decide) hu
        refine .inr ⟨by rw [htarget], Option.some_ne_none _, by rw [htarget]; decide, hlinks, ?_, by rw [htarget]; exact hno⟩
        rw [hcount]
        simp only [countAfter, hlast, Option.map_some]

/-- In a state of the invariant the next index is the one behind the count. -/
theorem target_eq {k : ℕ} (h : Counted s) (hk : s.lastSlpCount = some k) : s.target none = k + 1 := by
  simp only [Soc.target, hk, (h.count k hk).2]

theorem touches_inTable (h : Counted s) {j : ℕ} (hj : Touches s c j) : j < socpmSlpLstSz := by
  induction hj with
  | last _ hk => exact (h.count _ hk).1
  | head hh => exact h.inTable.head _ hh
  | entry _ hi => exact hi
  | link _ hk => exact h.inTable.next _ _ hk

/-- A call whose index comes out right is not rejected, unless it says nothing about the sleep before the first. -/
theorem Fits.not_rejected {i : Option ℕ} {k : ℕ} (hr : r.stuck = false) (h : Counted r.soc) (hfits : Fits r c)
    (hidx : c.listIdx = none) (hk : r.soc.lastSlpCount = some k) : ¬ Rejected r.soc c s' i := by
  intro hrej
  have := hfits hr hidx
  simp only [hk] at this
  obtain hnone | hfull := hrej.reason
  · exact this.1 hnone
  · rw [hidx, target_eq h hk] at hfull
    omega

theorem target_first (hlast : s.lastSlpCount = none) : s.target none = 0 := by simp only [Soc.target, hlast]

theorem Fits.counted {i : Option ℕ} (hr : r.stuck = false) (h : Counted r.soc) (hfits : Fits r c)
    (hrun : c.run r.soc = some (s', i)) : Counted s' := by
  have hcases := run_cases h hrun
  have hlinks : s'.InTable := by
    obtain hrej | hserved := hcases
    · rw [hrej.state]
      exact h.inTable.congr rfl rfl
    · exact hserved.links
  have hcount : s'.lastSlpCount = c.countAfter r.soc := by
    obtain hrej | hserved := hcases
    · rw [hrej.state]
    · exact hserved.count
  refine ⟨hlinks, fun k hk => ?_⟩
  rw [hcount] at hk
  cases hidx : c.listIdx with
  | some j =>
    simp only [countAfter, hidx] at hk
    refine ⟨(h.count k hk).1, ?_⟩
    obtain hrej | hserved := hcases
    · rw [hrej.state]
      exact (h.count k hk).2
    · rw [hserved.number, hidx]
      by_cases hkj : k = j
      · rw [hkj]
        exact Function.update_self ..
      · exact (Function.update_of_ne hkj ..).trans (h.count k hk).2
  | none =>
    cases hlast : r.soc.lastSlpCount with
    | some n =>
      simp only [countAfter, hidx, hlast, Option.mem_def, Option.some.injEq] at hk
      subst hk
      obtain hrej | hserved := hcases
      · exact absurd hrej (hfits.not_rejected hr h hidx hlast)
      · have hin := hserved.inTable
        have hno := hserved.number
        rw [hidx, target_eq h hlast] at hin hno
        rw [hno]
        exact ⟨hin, Function.update_self ..⟩
    | none =>
      simp only [countAfter, hidx, hlast, Option.mem_def, Option.map_eq_some_iff, exists_and_right] at hk
      obtain ⟨⟨info, hinfo⟩, rfl⟩ := hk
      obtain hrej | hserved := hcases
      · obtain hnone | hfull := hrej.reason
        · simp [hinfo] at hnone
        · rw [hidx, target_first hlast] at hfull
          exact absurd hfull (by decide)
      · have hno := hserved.number
        rw [hidx, target_first hlast] at hno
        rw [hno]
        exact ⟨by decide, Function.update_self ..⟩

theorem Fits.clean (hr : r.stuck = false) (h : Counted r.soc) (hfits : Fits r c) : Clean r c where
  inTable _ hj := touches_inTable h hj
  count _ _ hrun k hk := ((hfits.counted hr h hrun).count k hk).1
  fresh s' i hrun hidx := by
    have hfit := hfits hr hidx
    obtain hrej | hserved := run_cases h hrun
    · cases hrej.result
    · have hi := Option.some.inj hserved.result
      rw [hidx] at hi
      cases hlast : r.soc.lastSlpCount with
      | some k =>
        simp only [hlast] at hfit
        rw [hi, target_eq h hlast]
        exact hfit.2.2
      | none =>
        simp only [hlast] at hfit
        rw [hi, target_first hlast]
        exact hfit.resolve_left hserved.info
  unchanged s' hrun := by
    obtain hrej | hserved := run_cases h hrun
    · have hcount : c.countAfter r.soc = r.soc.lastSlpCount := by
        cases hidx : c.listIdx with
        | some j => simp only [countAfter, hidx]
        | none =>
          cases hlast : r.soc.lastSlpCount with
          | some k => exact absurd hrej (hfits.not_rejected hr h hidx hlast)
          | none =>
            obtain hnone | hfull := hrej.reason
            · simp only [countAfter, hidx, hlast, hnone, Option.map_none]
            · rw [hidx, target_first hlast] at hfull
              exact absurd hfull (by decide)
      rw [hrej.state, hcount]
    · cases hserved.result

/-- A call that returns and is clean has the right index. -/
theorem Clean.fits (hr : r.stuck = false) (h : Counted r.soc) (hret : Returns r c) (hclean : Clean r c) :
    Fits r c := by
  rintro - hidx
  obtain ⟨⟨s', i⟩, hrun⟩ := Option.isSome_iff_exists.mp (hret hr)
  have hcases := run_cases h hrun
  cases hlast : r.soc.lastSlpCount with
  | some k =>
    obtain hrej | hserved := hcases
    · -- the count has gone up nevertheless
      obtain rfl := hrej.result
      have hsame := congrArg Soc.lastSlpCount (hclean.unchanged s' hrun)
      rw [hrej.state] at hsame
      simp [countAfter, hidx, hlast] at hsame
    · have hres := hserved.result
      have hin := hserved.inTable
      rw [hidx, target_eq h hlast] at hres hin
      subst hres
      exact ⟨hserved.info, hin, hclean.fresh s' _ hrun hidx⟩
  | none =>
    by_cases hinfo : c.slpInfo = none
    · exact .inl hinfo
    · obtain hrej | hserved := hcases
      · obtain hnone | hfull := hrej.reason
        · exact absurd hnone hinfo
        · rw [hidx, target_first hlast] at hfull
          exact absurd hfull (by decide)
      · have hres := hserved.result
        rw [hidx, target_first hlast] at hres
        subst hres
        exact .inr (hclean.fresh s' _ hrun hidx)

end RegisterCall

namespace Registry

variable {r : Registry} {c : RegisterCall}

def Inv (r : Registry) : Prop := r.stuck = false → Counted r.soc

theorem inv_init (suppMinMs now : ℕ) (inWarmBoot : Bool) : (init suppMinMs now inWarmBoot).Inv := fun _ =>
  ⟨⟨by simp [init, Soc.init], by simp [init, Soc.init]⟩, by simp [init, Soc.init]⟩

theorem Inv.act (h : r.Inv) (hfits : c.Fits r) : (RegisterCall.act r c).Inv := by
  cases hr : r.stuck with
  | true =>
    rw [RegisterCall.act, if_pos hr]
    exact h
  | false =>
    cases hrun : c.run r.soc with
    | none => simp [RegisterCall.act, hr, hrun, Inv]
    | some t =>
      simp only [RegisterCall.act, hr, hrun, Bool.false_eq_true, if_false]
      exact fun _ => RegisterCall.Fits.counted hr (h hr) hfits hrun

end Registry

open RegisterCall in
/-- In a run of calls each of which has the right index, every call is bounded and fails cleanly; and where each call
    returns, this is so of no other run. -/
theorem registration_clean_iff (suppMinMs now : ℕ) (inWarmBoot : Bool) (cs : List RegisterCall) :
    (Along act Fits (.init suppMinMs now inWarmBoot) cs → Along act CleanAt (.init suppMinMs now inWarmBoot) cs) ∧
    (Along act Returns (.init suppMinMs now inWarmBoot) cs → Along act CleanAt (.init suppMinMs now inWarmBoot) cs →
      Along act Fits (.init suppMinMs now inWarmBoot) cs) := by
  have hinit := Registry.inv_init suppMinMs now inWarmBoot
  have hkeep : ∀ r c, Registry.Inv r → Fits r c → Registry.Inv (act r c) := fun r c h hfits => h.act hfits
  constructor
  · exact Along.of_inv hkeep (fun r c h hfits hr => hfits.clean hr (h hr)) hinit
  · intro hret
    refine (Along.iff (I := Registry.Inv) (fun r c h _ => hkeep r c h) (fun r c h hc => ?_) hinit hret).mp
    constructor
    · intro hclean hr
      exact (hclean hr).fits hr (h hr) hc hr
    · exact fun hfits hr => hfits.clean hr (h hr)

open RegisterCall in
/-- Two sleepers, the second one registered again. -/
theorem registration_clean_two :
    Along act CleanAt (.init 0 5 false) [⟨some (.plain 10), none, 0, 5, fun _ => 1⟩,
      ⟨some (.plain 20), none, 0, 7, fun _ => 1⟩, ⟨some (.plain 30), some 1, 0, 12, fun _ => 1⟩,
      ⟨none, some 12, 0, 20, fun _ => 1⟩] :=
  (registration_clean_iff 0 5 false _).1
    ⟨fun _ _ => .inr (by decide), fun _ _ => ⟨Option.some_ne_none _, by decide, by decide⟩, fun _ h => (by cases h),
      fun _ h => (by cases h), trivial⟩

open RegisterCall in
/-- A call that says nothing about the sleep is rejected, and the count goes up. Of the two calls that follow both get
    the entry 1. -/
theorem registration_not_clean :
    ¬ Along act CleanAt (.init 0 5 false) [⟨some (.plain 10), none, 0, 5, still⟩, ⟨none, none, 0, 6, still⟩] ∧
    ([⟨some (.plain 10), none, 0, 5, still⟩, ⟨none, none, 0, 6, still⟩, ⟨some (.plain 20), none, 0, 7, still⟩,
      ⟨some (.plain 30), none, 0, 8, still⟩].foldl act (.init 0 5 false)).returned = [1, 1, 0] := by
  refine ⟨fun h => ?_, rfl⟩
  have hsame := congrArg Soc.lastSlpCount ((h.2.1 rfl).unchanged _ rfl)
  cases hsame

end Qcc730.Sleep
