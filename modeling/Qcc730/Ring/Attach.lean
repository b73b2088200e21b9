import Qcc730.Ring.F2a

/-! Attaches that run at the same time.

    `ringif_f2a_pkt_attach` takes no lock: it tests the two indices, reads the write index, looks at the element
    there, stores the packet field by field, moves the write index on and sets the pending flag. A call is cut at
    these reads and writes, and other attaches, the host and the clearing thread may act between any two of
    them. -/

namespace Qcc730.Ring
open Lib

/-- Where a call of `ringif_f2a_pkt_attach` stands. -/
inductive AttachCall where
  /-- no call is under way -/
  | idle
  /-- `ringif_ring_full` has read the write index; the read index is next -/
  | testing (p : Packet) (writeIdx : ℕ)
  /-- the ring is not full -/
  | passed (p : Packet)
  /-- `curr_write_idx` is read -/
  | gotWrite (p : Packet) (currWriteIdx : ℕ)
  /-- the element there is free -/
  | free (p : Packet) (currWriteIdx : ℕ)
  /-- `p_buf` is stored -/
  | bufStored (p : Packet) (currWriteIdx : ℕ)
  /-- `p_buf_start` too -/
  | startStored (p : Packet) (currWriteIdx : ℕ)
  /-- `len` too -/
  | lenStored (p : Packet) (currWriteIdx : ℕ)
  /-- the whole element; the write index is next -/
  | stored (p : Packet) (currWriteIdx : ℕ)
  /-- the write index is moved on; `ring_idx_clear_pending` is set next -/
  | published

namespace AttachCall

/-- The call has not moved the write index yet. -/
def Open : AttachCall → Prop
  | idle | published => False
  | _ => True

/-- It has stored to the element. -/
def Storing : AttachCall → Prop
  | bufStored _ _ | startStored _ _ | lenStored _ _ | stored _ _ => True
  | _ => False

theorem Storing.isOpen {c : AttachCall} (h : c.Storing) : c.Open := by
  cases c <;> trivial

end AttachCall

/-- The ring, the clearing thread, the host and the threads that attach. -/
structure F2aThreads extends F2a where
  attaching : ℕ → AttachCall

inductive ThreadAct where
  /-- thread `t` calls `ringif_f2a_pkt_attach` -/
  | call (t : ℕ) (p : Packet)
  /-- its call goes one access on -/
  | attach (t : ℕ)
  /-- the host reads `k` elements on -/
  | host (k : ℕ)
  /-- the clearing thread goes one statement on; `ok` is what the clear function returns -/
  | clear (ok : Bool)

namespace F2aThreads

def create (n r : ℕ) : F2aThreads := { F2a.create n r with attaching := fun _ => .idle }

/-- Thread `t` goes to `c`, with the ring as in `x`. -/
def goes (s : F2aThreads) (t : ℕ) (x : F2a) (c : AttachCall) : F2aThreads :=
  ⟨x, Function.update s.attaching t c⟩

/-- The next access of the call of thread `t`. -/
def attach (s : F2aThreads) (t : ℕ) : F2aThreads :=
  let store (i : ℕ) (e : Element) : F2a := { s.toF2a with ring := s.ring.setElem i e }
  match s.attaching t with
  | .idle => s
  | .testing p w =>
    if { s.ring with writeIdx := w }.ringFull then s.goes t s.toF2a .idle else s.goes t s.toF2a (.passed p)
  | .passed p => s.goes t s.toF2a (.gotWrite p s.ring.writeIdx)
  | .gotWrite p i => if (s.ring.elem i).Empty then s.goes t s.toF2a (.free p i) else s.goes t s.toF2a .idle
  | .free p i => s.goes t (store i { s.ring.elem i with pBuf := p.elem.pBuf }) (.bufStored p i)
  | .bufStored p i => s.goes t (store i { s.ring.elem i with pBufStart := p.elem.pBufStart }) (.startStored p i)
  | .startStored p i => s.goes t (store i { s.ring.elem i with len := p.elem.len }) (.lenStored p i)
  | .lenStored p i => s.goes t (store i { s.ring.elem i with info := p.elem.info }) (.stored p i)
  | .stored p i =>
    s.goes t { s.toF2a with
      ring := { s.ring with writeIdx := (i + 1) % s.ring.ringNumElem }
      attached := s.attached ++ [p.elem] } .published
  | .published => s.goes t { s.toF2a with ring := { s.ring with ringIdxClearPending := true } } .idle

def act (s : F2aThreads) : ThreadAct → F2aThreads
  | .call t p =>
    match s.attaching t with
    | .idle => s.goes t s.toF2a (.testing p s.ring.writeIdx)
    | _ => s
  | .attach t => s.attach t
  | .host k => { s with toF2a := s.toF2a.host k }
  | .clear ok => { s with toF2a := s.toF2a.clear ok }

def Step (s s' : F2aThreads) : Prop := ∃ a, s' = s.act a

/-- A call begins when every other one has moved the write index. -/
def Exclusive (s : F2aThreads) : ThreadAct → Prop
  | .call t _ => ∀ t', t' ≠ t → ¬ (s.attaching t').Open
  | _ => True

def ExclusiveStep (s s' : F2aThreads) : Prop := ∃ a, s.Exclusive a ∧ s' = s.act a

/-- The elements cleared are the first ones attached, in order; the host has read each of them; and every later one
    is still in its slot. If the host has read everything, a call whose clear function succeeds leaves nothing in
    the ring. -/
structure ExactlyOnce (b n : ℕ) (s : F2aThreads) : Prop where
  prefix_attached : s.cleared <+: s.attached
  read : s.cleared.length ≤ s.read
  slots : ∀ j, s.cleared.length ≤ j → j < s.attached.length → s.attached[j]? = some (s.ring.elem ((b + j) % n))
  drained : s.call = .idle → s.read = s.attached.length → (∀ t, ¬ (s.attaching t).Storing) →
    ∃ s', F2a.Returns s.toF2a s' ∧ s'.attached = s.attached ∧ s'.cleared = s.attached ∧
      ∀ i < n, (s'.ring.elem i).Empty

/-! ### The invariant -/

/-- What a call knows of the ring at each access. -/
def Knows (n : ℕ) (x : F2a) : AttachCall → Prop
  | .idle | .published => True
  | .testing _ w => w = x.ring.writeIdx
  | .passed _ => x.attached.length + 1 < x.read + n
  | .gotWrite _ i => i = x.ring.writeIdx ∧ x.attached.length + 1 < x.read + n
  | .free _ i => i = x.ring.writeIdx ∧ x.attached.length + 1 < x.read + n ∧
      x.attached.length < x.cleared.length + n
  | .bufStored p i => i = x.ring.writeIdx ∧ (x.ring.elem i).pBuf = p.elem.pBuf
  | .startStored p i => i = x.ring.writeIdx ∧ (x.ring.elem i).pBuf = p.elem.pBuf ∧
      (x.ring.elem i).pBufStart = p.elem.pBufStart
  | .lenStored p i => i = x.ring.writeIdx ∧ (x.ring.elem i).pBuf = p.elem.pBuf ∧
      (x.ring.elem i).pBufStart = p.elem.pBufStart ∧ (x.ring.elem i).len = p.elem.len
  | .stored p i => i = x.ring.writeIdx ∧ x.ring.elem i = p.elem

/-- One call at a time has not moved the write index, and the element there is in its hands. -/
structure Inv (b n : ℕ) (s : F2aThreads) : Prop where
  base : F2a.Inv b n (∃ t, (s.attaching t).Storing) s.toF2a
  single : ∀ t t', (s.attaching t).Open → (s.attaching t').Open → t = t'
  knows : ∀ t, Knows n s.toF2a (s.attaching t)

variable {b n : ℕ} {s : F2aThreads}

theorem inv_create (hn : 2 ≤ n) (r : ℕ) : Inv (create n r).ring.writeIdx n (create n r) := by
  refine ⟨?_, ?_, fun _ => trivial⟩
  · have hnone : (∃ t, ((create n r).attaching t).Storing) ↔ False := by simp [create, AttachCall.Storing]
    exact (propext hnone) ▸ F2a.inv_create hn r
  · rintro t t' ⟨⟩

@[simp] theorem goes_attaching (s : F2aThreads) (t : ℕ) (x : F2a) (c : AttachCall) (t' : ℕ) :
    (s.goes t x c).attaching t' = if t' = t then c else s.attaching t' := by
  simp [goes, Function.update_apply]

@[simp] theorem goes_toF2a (s : F2aThreads) (t : ℕ) (x : F2a) (c : AttachCall) : (s.goes t x c).toF2a = x := rfl

/-- What a call knows stays true while the ring keeps its write index and the element there, and the host and the
    clearing thread only move on. -/
theorem Knows.mono {x y : F2a} {c : AttachCall} (h : Knows n x c) (hw : y.ring.writeIdx = x.ring.writeIdx)
    (ha : y.attached = x.attached) (hr : x.read ≤ y.read) (hc : x.cleared.length ≤ y.cleared.length)
    (he : c.Storing → y.ring.elem x.ring.writeIdx = x.ring.elem x.ring.writeIdx) : Knows n y c := by
  cases c with
  | idle => trivial
  | published => trivial
  | testing p w => exact h.trans hw.symm
  | passed p =>
    simp only [Knows, ha] at h ⊢
    omega
  | gotWrite p i =>
    simp only [Knows, ha, hw] at h ⊢
    exact ⟨h.1, by omega⟩
  | free p i =>
    simp only [Knows, ha, hw] at h ⊢
    exact ⟨h.1, by omega, by omega⟩
  | bufStored p i =>
    obtain ⟨rfl, h⟩ := h
    exact ⟨hw.symm, by rwa [he trivial]⟩
  | startStored p i =>
    obtain ⟨rfl, h⟩ := h
    exact ⟨hw.symm, by rwa [he trivial]⟩
  | lenStored p i =>
    obtain ⟨rfl, h⟩ := h
    exact ⟨hw.symm, by rwa [he trivial]⟩
  | stored p i =>
    obtain ⟨rfl, h⟩ := h
    exact ⟨hw.symm, by rwa [he trivial]⟩

namespace Inv

/-- The only call that has not moved the write index goes on. -/
theorem of_goes {t : ℕ} (ht : ∀ t', t' ≠ t → ¬ (s.attaching t').Open) {x : F2a} {c : AttachCall}
    (hx : F2a.Inv b n c.Storing x) (hc : Knows n x c) : Inv b n (s.goes t x c) := by
  have hother : ∀ t', ((s.goes t x c).attaching t').Open → t' = t := by
    intro t' ho
    rw [goes_attaching] at ho
    by_contra hne
    rw [if_neg hne] at ho
    exact ht t' hne ho
  refine ⟨?_, fun u u' hu hu' => (hother u hu).trans (hother u' hu').symm, fun t' => ?_⟩
  · have hheld : c.Storing ↔ ∃ t', ((s.goes t x c).attaching t').Storing := by
      constructor
      · intro hst
        exact ⟨t, by simpa using hst⟩
      · rintro ⟨t', hst⟩
        have he := hother t' hst.isOpen
        simpa [he] using hst
    exact (propext hheld) ▸ hx
  · rw [goes_attaching]
    split
    · exact hc
    · rename_i hne
      have hclosed := ht t' hne
      revert hclosed
      cases s.attaching t' <;> simp [AttachCall.Open, Knows]

/-- A call that has not moved the write index is the only one. -/
theorem alone (h : Inv b n s) {t : ℕ} (ht : (s.attaching t).Open) :
    (∀ t', t' ≠ t → ¬ (s.attaching t').Open) ∧ F2a.Inv b n (s.attaching t).Storing s.toF2a := by
  refine ⟨fun t' hne ho => hne (h.single t' t ho ht), ?_⟩
  have hheld : (∃ t', (s.attaching t').Storing) ↔ (s.attaching t).Storing := by
    constructor
    · rintro ⟨t', hst⟩
      rwa [h.single t' t hst.isOpen ht] at hst
    · exact fun hst => ⟨t, hst⟩
  exact (propext hheld) ▸ h.base

/-- Every access of an attach keeps the invariant. -/
theorem attach (h : Inv b n s) (t : ℕ) : Inv b n (s.attach t) := by
  have hk := h.knows t
  have halone := fun ho => h.alone (t := t) ho
  rw [F2aThreads.attach]
  cases hc : s.attaching t with
  | idle => exact h
  | testing p w =>
    rw [hc] at hk halone
    obtain ⟨hone, hx⟩ := halone trivial
    have hw : { s.ring with writeIdx := w }.ringFull = s.ring.ringFull := by rw [show w = s.ring.writeIdx from hk]
    dsimp only
    split
    · exact of_goes hone hx trivial
    · rename_i hf
      rw [hw, hx.full_iff] at hf
      have hroom := hx.room
      exact of_goes hone hx (by simp only [Knows]; omega)
  | passed p =>
    rw [hc] at hk halone
    obtain ⟨hone, hx⟩ := halone trivial
    exact of_goes hone hx ⟨rfl, hk⟩
  | gotWrite p i =>
    rw [hc] at hk halone
    obtain ⟨hone, hx⟩ := halone trivial
    obtain ⟨rfl, hroom⟩ := hk
    dsimp only
    split
    · rename_i he
      exact of_goes hone hx ⟨rfl, hroom, (hx.write_empty_iff id).mp he⟩
    · exact of_goes hone hx trivial
  | free p i =>
    rw [hc] at hk halone
    obtain ⟨hone, hx⟩ := halone trivial
    obtain ⟨rfl, hroom, hlap⟩ := hk
    exact of_goes hone (hx.stores hlap hroom _) ⟨rfl, by simp⟩
  | bufStored p i =>
    rw [hc] at hk halone
    obtain ⟨hone, hx⟩ := halone trivial
    obtain ⟨rfl, hbuf⟩ := hk
    obtain ⟨hlap, hroom⟩ := hx.ahead trivial
    exact of_goes hone (hx.stores hlap hroom _) ⟨rfl, by simp [hbuf]⟩
  | startStored p i =>
    rw [hc] at hk halone
    obtain ⟨hone, hx⟩ := halone trivial
    obtain ⟨rfl, hbuf, hstart⟩ := hk
    obtain ⟨hlap, hroom⟩ := hx.ahead trivial
    exact of_goes hone (hx.stores hlap hroom _) ⟨rfl, by simp [hbuf, hstart]⟩
  | lenStored p i =>
    rw [hc] at hk halone
    obtain ⟨hone, hx⟩ := halone trivial
    obtain ⟨rfl, hbuf, hstart, hlen⟩ := hk
    obtain ⟨hlap, hroom⟩ := hx.ahead trivial
    exact of_goes hone (hx.stores hlap hroom _) ⟨rfl, by simp [hbuf, hstart, hlen]⟩
  | stored p i =>
    rw [hc] at hk halone
    obtain ⟨hone, hx⟩ := halone trivial
    obtain ⟨rfl, he⟩ := hk
    exact of_goes hone (hx.published he) trivial
  | published =>
    -- the other calls do not look at the flag, and this one held nothing
    dsimp only
    have hheld : (∃ t', (s.attaching t').Storing) ↔
        ∃ t', ((s.goes t { s.toF2a with ring := { s.ring with ringIdxClearPending := true } } .idle).attaching
          t').Storing := by
      refine exists_congr fun t' => ?_
      by_cases he : t' = t
      · simp [he, hc, AttachCall.Storing]
      · simp [he]
    refine ⟨(propext hheld) ▸ h.base.moved s.call s.ring.ringIdxToClear true h.base.place, fun u u' hu hu' => ?_,
      fun t' => ?_⟩
    · rw [goes_attaching] at hu hu'
      split at hu
      · exact hu.elim
      · split at hu'
        · exact hu'.elim
        · exact h.single u u' hu hu'
    · rw [goes_attaching]
      split
      · trivial
      · exact (h.knows t').mono rfl rfl le_rfl le_rfl fun _ => rfl

/-- So do the host and the clearing thread. -/
theorem others (h : Inv b n s) {x : F2a} (hx : F2a.Inv b n (∃ t, (s.attaching t).Storing) x)
    (hw : x.ring.writeIdx = s.ring.writeIdx) (ha : x.attached = s.attached) (hr : s.read ≤ x.read)
    (hc : s.cleared.length ≤ x.cleared.length)
    (he : s.attached.length < s.cleared.length + n → x.ring.elem s.ring.writeIdx = s.ring.elem s.ring.writeIdx) :
    Inv b n { s with toF2a := x } :=
  ⟨hx, h.single, fun t => (h.knows t).mono hw ha hr hc fun hst => he (h.base.ahead ⟨t, hst⟩).1⟩

theorem act (h : Inv b n s) {a : ThreadAct} (ha : s.Exclusive a) : Inv b n (s.act a) := by
  cases a with
  | call t p =>
    rw [F2aThreads.act]
    split
    · rename_i hidle
      have hheld : (∃ t', (s.attaching t').Storing) ↔ False := by
        refine iff_false_intro ?_
        rintro ⟨t', hst⟩
        by_cases hne : t' = t
        · rw [hne, hidle] at hst
          exact hst
        · exact ha t' hne hst.isOpen
      have hx : F2a.Inv b n False s.toF2a := (propext hheld) ▸ h.base
      exact of_goes ha hx rfl
    · exact h
  | attach t => exact h.attach t
  | host k =>
    refine h.others (h.base.host k) ?_ ?_ ?_ ?_ fun _ => ?_ <;> rw [F2a.host] <;> split <;>
      first | rfl | exact le_rfl | exact Nat.le_add_right _ _
  | clear ok =>
    obtain ⟨hatt, hread, hwrite, -, hcl⟩ := F2a.clear_keeps s.toF2a ok
    exact h.others (h.base.clear ok) hwrite hatt hread.ge hcl fun hlap => h.base.clear_write hlap ok

end Inv

/-! ### Exactly once -/

/-- A whole attach by thread `t`. -/
def whole (t : ℕ) (p : Packet) : List ThreadAct := .call t p :: List.replicate 9 (.attach t)

/-- The action is not one of thread `t`. -/
def NotOf (t : ℕ) : ThreadAct → Prop
  | .call t' _ | .attach t' => t ≠ t'
  | _ => True

/-- A thread that does not act stays where it is. -/
theorem foldl_attaching {t : ℕ} {as : List ThreadAct} (h : ∀ a ∈ as, NotOf t a) :
    (as.foldl act s).attaching t = s.attaching t := by
  induction as generalizing s with
  | nil => rfl
  | cons a as ih =>
    rw [List.foldl_cons, ih fun a' ha' => h a' (List.mem_cons_of_mem _ ha')]
    have ha := h a (List.mem_cons_self ..)
    cases a with
    | call t' p =>
      rw [act]
      split
      · rw [goes_attaching, if_neg ha]
      · rfl
    | attach t' =>
      have hgoes : ∀ (x : F2a) (c : AttachCall), (s.goes t' x c).attaching t = s.attaching t := by
        intro x c
        rw [goes_attaching, if_neg ha]
      rw [act, attach]
      split <;> first | rfl | exact hgoes _ _ | (split <;> exact hgoes _ _)
    | host k => rfl
    | clear ok => rfl

/-! ### The pending flag -/

end F2aThreads

/-- The call has not gone into its loop. -/
def ClearCall.Early : ClearCall → Prop
  | .idle | .gotRead _ | .gotWrite _ _ => True
  | _ => False

namespace F2aThreads

/-- The flag is not set while everything attached is cleared and no call is in its loop or behind it, and not reset
    while every element is in use and no attach is about to set it. -/
def FlagStays (s : F2aThreads) : ThreadAct → Prop
  | .attach t => s.attaching t = .published → s.call.Early → s.cleared.length ≠ s.attached.length
  | .clear _ => s.call = .drop → s.attached.length = s.cleared.length + s.ring.ringNumElem →
      ∃ t, s.attaching t = .published
  | _ => True

def CalmStep (s s' : F2aThreads) : Prop := ∃ a, (s.Exclusive a ∧ s.FlagStays a) ∧ s' = s.act a

/-- The flag that `ringif_f2a_num_elems_to_clear` reads where the indices do not tell an empty ring from one that
    is used all round. -/
structure Flagged (b n : ℕ) (s : F2aThreads) : Prop extends Inv b n s where
  full : s.attached.length = s.cleared.length + n →
    s.ring.ringIdxClearPending = true ∨ ∃ t, s.attaching t = .published
  none : s.call.Early → s.cleared.length = s.attached.length → s.ring.ringIdxClearPending = false

theorem flagged_create (hn : 2 ≤ n) (r : ℕ) : Flagged (create n r).ring.writeIdx n (create n r) := by
  refine ⟨inv_create hn r, ?_, fun _ _ => rfl⟩
  simp only [create, F2a.create, List.length_nil]
  omega

namespace Flagged

/-- The count is the number of elements read and not cleared. -/
theorem num_eq (h : Flagged b n s) (hc : s.call = .idle) (hset : ∀ t, s.attaching t ≠ .published) :
    s.ring.f2aNumElemsToClear = s.read - s.cleared.length := by
  have hb := h.base
  have hp := hb.place
  rw [hc] at hp
  have hp' : s.ring.ringIdxToClear = (b + s.cleared.length) % n := hp
  have hle := hb.cleared_le
  have hle' := hb.read_le
  have hlap := hb.lap
  have hroom := hb.room
  have hlt := Nat.mod_lt (b + s.read) hb.pos
  simp only [RingCtx.f2aNumElemsToClear, hb.num, hb.readIdx, hb.write, hp', if_neg hlt.not_ge]
  rcases Nat.lt_or_eq_of_le hle with hlt' | heq
  · by_cases hall : s.read = s.cleared.length + n
    · have hw : s.attached.length = s.read := by omega
      have hidx : (b + s.read) % n = (b + s.cleared.length) % n := by
        rw [hall, ← Nat.add_assoc, Nat.add_mod_right]
      obtain hpend | ⟨t, ht⟩ := h.full (by omega)
      · rw [if_neg (by omega), if_pos hidx, if_pos ⟨by rw [hw], hpend⟩]
        omega
      · exact absurd ht (hset t)
    · have hd := mod_distance (n := n) (x := b + s.cleared.length) (y := b + s.read) (by omega) (by omega)
      have hne := mod_ne_mod_of_lt (n := n) (x := b + s.cleared.length) (y := b + s.read) (by omega) (by omega)
      split
      · rename_i hgt
        rw [hd.1 hgt]
        omega
      · rename_i hgt
        rw [if_neg hne.symm, hd.2 (by omega)]
        omega
  · rw [heq, if_neg (lt_irrefl _), if_pos rfl, if_neg, Nat.sub_self]
    rintro ⟨hw, hpend⟩
    rw [eq_comm, mod_eq_mod_iff_lap hb.pos (by omega) (by omega)] at hw
    rw [h.none (hc ▸ trivial) (by omega)] at hpend
    exact Bool.false_ne_true hpend

end Flagged

/-- What one access does to the flag: it moves the write index, it sets the flag, or neither. -/
theorem attach_flag (s : F2aThreads) (t : ℕ) :
    (s.attach t).call = s.call ∧ (s.attach t).cleared = s.cleared ∧
      ((∃ p i, s.attaching t = .stored p i ∧ (s.attach t).attached = s.attached ++ [p.elem] ∧
          (s.attach t).attaching t = .published) ∨
        (s.attaching t = .published ∧ (s.attach t).attached = s.attached ∧
          (s.attach t).ring.ringIdxClearPending = true) ∨
        ((s.attach t).attached = s.attached ∧
          (s.attach t).ring.ringIdxClearPending = s.ring.ringIdxClearPending ∧
          ∀ t', s.attaching t' = .published → (s.attach t).attaching t' = .published)) := by
  have hstay : ∀ (x : F2a) (c : AttachCall), s.attaching t ≠ .published → ∀ t', s.attaching t' = .published →
      (s.goes t x c).attaching t' = .published := by
    intro x c hne t' ht'
    rw [goes_attaching, if_neg, ht']
    rintro rfl
    exact hne ht'
  rw [attach]
  cases hc : s.attaching t with
  | idle => exact ⟨rfl, rfl, .inr (.inr ⟨rfl, rfl, fun _ => id⟩)⟩
  | testing p w =>
    dsimp only
    split <;> exact ⟨rfl, rfl, .inr (.inr ⟨rfl, rfl, hstay _ _ (by simp [hc])⟩)⟩
  | passed p => exact ⟨rfl, rfl, .inr (.inr ⟨rfl, rfl, hstay _ _ (by simp [hc])⟩)⟩
  | gotWrite p i =>
    dsimp only
    split <;> exact ⟨rfl, rfl, .inr (.inr ⟨rfl, rfl, hstay _ _ (by simp [hc])⟩)⟩
  | free p i => exact ⟨rfl, rfl, .inr (.inr ⟨rfl, rfl, hstay _ _ (by simp [hc])⟩)⟩
  | bufStored p i => exact ⟨rfl, rfl, .inr (.inr ⟨rfl, rfl, hstay _ _ (by simp [hc])⟩)⟩
  | startStored p i => exact ⟨rfl, rfl, .inr (.inr ⟨rfl, rfl, hstay _ _ (by simp [hc])⟩)⟩
  | lenStored p i => exact ⟨rfl, rfl, .inr (.inr ⟨rfl, rfl, hstay _ _ (by simp [hc])⟩)⟩
  | stored p i => exact ⟨rfl, rfl, .inl ⟨p, i, rfl, rfl, by simp⟩⟩
  | published => exact ⟨rfl, rfl, .inr (.inl ⟨rfl, rfl, rfl⟩)⟩

namespace Flagged

theorem attach (h : Flagged b n s) {t : ℕ} (hflag : s.FlagStays (.attach t)) : Flagged b n (s.attach t) := by
  have hle := h.base.cleared_le
  have hle' := h.base.read_le
  refine ⟨h.toInv.attach t, ?_, ?_⟩ <;>
    obtain ⟨hcall, hcl, ⟨p, i, -, hatt, hpub⟩ | ⟨hpub, hatt, hset⟩ | ⟨hatt, hpend, hstay⟩⟩ := attach_flag s t
  · exact fun _ => .inr ⟨t, hpub⟩
  · exact fun _ => .inl hset
  · rw [hatt, hcl, hpend]
    refine fun hfull => (h.full hfull).imp_right ?_
    rintro ⟨t', ht'⟩
    exact ⟨t', hstay t' ht'⟩
  · rw [hatt, hcl]
    intro _ hlen
    simp only [List.length_append, List.length_cons, List.length_nil] at hlen
    omega
  · rw [hcall, hatt, hcl]
    exact fun hearly hlen => absurd hlen (hflag hpub hearly)
  · rw [hcall, hatt, hcl, hpend]
    exact h.none

/-- The flag is up, or about to be, while the ring is used all round: only the last statement of a call takes it
    down. -/
theorem clear_full (h : Flagged b n s) {ok : Bool} (hflag : s.FlagStays (.clear ok)) :
    (s.toF2a.clear ok).attached.length = (s.toF2a.clear ok).cleared.length + n →
      (s.toF2a.clear ok).ring.ringIdxClearPending = true ∨ ∃ t, s.attaching t = .published := by
  rw [F2a.clear]
  cases hc : s.call with
  | idle => exact h.full
  | gotRead r => exact h.full
  | gotWrite r w =>
    dsimp only
    split <;> exact h.full
  | loop idx =>
    have hlap := h.base.lap
    dsimp only
    split
    · intro hlen
      simp only [List.length_append, List.length_cons, List.length_nil] at hlen
      omega
    · exact h.full
  | next idx =>
    dsimp only
    split <;> exact h.full
  | leave idx => exact h.full
  | stored =>
    dsimp only
    split <;> exact h.full
  | drop => exact fun hlen => .inr (hflag hc (h.base.num ▸ hlen))

/-- It is down in an empty ring once a call has returned. -/
theorem clear_none (h : Flagged b n s) (ok : Bool) :
    (s.toF2a.clear ok).call.Early →
      (s.toF2a.clear ok).cleared.length = (s.toF2a.clear ok).attached.length →
      (s.toF2a.clear ok).ring.ringIdxClearPending = false := by
  have hle := h.base.cleared_le
  have hle' := h.base.read_le
  have hnone := h.none
  rw [F2a.clear]
  cases hc : s.call with
  | idle => exact fun _ => hnone (hc ▸ trivial)
  | gotRead r => exact fun _ => hnone (hc ▸ trivial)
  | gotWrite r w =>
    dsimp only
    split
    · exact fun _ => hnone (hc ▸ trivial)
    · exact False.elim
  | loop idx =>
    dsimp only
    split <;> exact False.elim
  | next idx =>
    dsimp only
    split <;> exact False.elim
  | leave idx => exact False.elim
  | stored =>
    dsimp only
    split
    · exact False.elim
    · rename_i he
      have hne := mt h.base.empty_iff.mpr he
      exact fun _ hlen => absurd hlen (by dsimp only; omega)
  | drop => exact fun _ _ => rfl

theorem act (h : Flagged b n s) {a : ThreadAct} (hone : s.Exclusive a) (hflag : s.FlagStays a) :
    Flagged b n (s.act a) := by
  have hi := h.toInv.act hone
  cases a with
  | call t p =>
    rw [F2aThreads.act] at hi ⊢
    split
    · rename_i hidle
      rw [hidle] at hi
      refine ⟨hi, fun hfull => (h.full hfull).imp_right ?_, h.none⟩
      rintro ⟨t', ht'⟩
      refine ⟨t', ?_⟩
      rw [goes_attaching, if_neg, ht']
      rintro rfl
      rw [hidle] at ht'
      exact AttachCall.noConfusion ht'
    · exact h
  | attach t => exact h.attach hflag
  | host k =>
    refine ⟨hi, ?_, ?_⟩ <;> rw [F2aThreads.act, F2a.host] <;> split
    · exact h.full
    · exact h.full
    · exact h.none
    · exact h.none
  | clear ok => exact ⟨hi, h.clear_full hflag, h.clear_none ok⟩

end Flagged

/-- Where the flag stays true to the ring, the trigger and the work agree: whenever no clear call is under way and no
    attach stands before the flag, `ringif_f2a_num_elems_to_clear` is the number of elements attached, read by the
    host and not cleared, and an update is posted exactly when a call would free an element. -/
theorem f2a_trigger_agrees {n r : ℕ} (hn : 2 ≤ n) {s : F2aThreads} (h : Reach CalmStep (create n r) s)
    (hc : s.call = .idle) (hset : ∀ t, s.attaching t ≠ .published) :
    s.ring.f2aNumElemsToClear = s.read - s.cleared.length ∧
      (s.ring.tickleF2aRing = true ↔
        ∃ s', F2a.Returns s.toF2a s' ∧ s.cleared.length < s'.cleared.length) := by
  have hf : Flagged (create n r).ring.writeIdx n s :=
    h.inv (flagged_create hn r) (by rintro x _ ⟨a, ⟨hone, hflag⟩, rfl⟩ hx; exact hx.act hone hflag)
  have hnum := hf.num_eq hc hset
  refine ⟨hnum, ?_⟩
  obtain ⟨t, hret, -, -, hlen⟩ := F2a.call_returns hf.base hc
  rw [RingCtx.tickleF2aRing, hnum, decide_eq_true_eq]
  constructor
  · intro hpos
    exact ⟨t, hret, by omega⟩
  · rintro ⟨s', hret', hlt⟩
    rw [hret'.2.unique hret.2] at hlt
    omega

/-- After one packet and one read, nothing was cleared and one element is due. -/
theorem f2a_trigger_agrees_of_one :
    let s := (whole 0 ⟨⟨16, 8, 1, 16⟩, by decide⟩ ++ [ThreadAct.host 1]).foldl act (create 2 0)
    s.ring.f2aNumElemsToClear = 1 ∧
      ∃ s', F2a.Returns s.toF2a s' ∧ s.cleared.length < s'.cleared.length := by
  intro s
  have hreach : Reach CalmStep (create 2 0) s := by
    refine Along.reach ⟨⟨fun _ _ ho => ho, trivial⟩, ⟨trivial, ?_⟩, ⟨trivial, ?_⟩, ⟨trivial, ?_⟩, ⟨trivial, ?_⟩,
      ⟨trivial, ?_⟩, ⟨trivial, ?_⟩, ⟨trivial, ?_⟩, ⟨trivial, ?_⟩, ⟨trivial, ?_⟩, ⟨trivial, trivial⟩, trivial⟩
    case refine_9 =>
      intro _ _
      decide
    all_goals rintro ⟨⟩
  have hset : ∀ t, s.attaching t ≠ .published := by
    intro t
    by_cases ht : t = 0
    · rw [ht]
      rintro ⟨⟩
    · rw [show s.attaching t = .idle from foldl_attaching (by simp [whole, NotOf, ht])]
      rintro ⟨⟩
  obtain ⟨hnum, hiff⟩ := f2a_trigger_agrees (by decide) hreach rfl hset
  exact ⟨hnum, hiff.mp (by decide)⟩

/-- Two packets of which the first cannot be freed (its length is 0), both read by the host: the call gives up at
    once, finds the ring empty and resets the flag, and nothing is due although both are still there. -/
theorem f2a_trigger_disagrees : ¬ ∀ s, Reach Step (create 2 0) s → s.call = .idle →
    (∀ t, s.attaching t = .idle) → s.ring.f2aNumElemsToClear = s.read - s.cleared.length := by
  intro h
  set as : List ThreadAct := whole 0 ⟨⟨16, 0, 1, 16⟩, by decide⟩ ++ [.host 1] ++
    whole 0 ⟨⟨32, 8, 1, 32⟩, by decide⟩ ++ [.host 1] ++ List.replicate 7 (.clear false) with has
  have hidle : ∀ t, (as.foldl act (create 2 0)).attaching t = .idle := by
    intro t
    by_cases ht : t = 0
    · rw [ht]
      rfl
    · exact foldl_attaching (by simp [has, whole, NotOf, ht])
  exact absurd (h _ (.foldl act (create 2 0) as) (by decide) hidle) (by decide)

end F2aThreads

end Qcc730.Ring
