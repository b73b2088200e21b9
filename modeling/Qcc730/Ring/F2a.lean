import Qcc730.Lib.Reach
import Qcc730.Ring.Context

/-! The firmware-to-host ring.

    Three parties share the ring: threads that attach packets, the host, which moves the read index, and the
    thread that runs `ringif_f2a_clear_used_bufs`. That call is cut at its reads and writes of the shared
    context, and the others may act between any two of them. Here an attach is one call that nobody interrupts,
    as on a ring that one task attaches to and clears; `Ring.Attach` cuts it as well. The ghost fields count what
    was attached, read and cleared since the ring was made: an index of the ring is one of these counts, taken
    modulo the number of elements from where the ring started. -/

namespace Qcc730.Ring
open Lib

/-- Where a call of `ringif_f2a_clear_used_bufs` stands. -/
inductive ClearCall where
  /-- no call is under way -/
  | idle
  /-- `read_idx` is read -/
  | gotRead (readIdx : ℕ)
  /-- `write_idx` is read too -/
  | gotWrite (readIdx writeIdx : ℕ)
  /-- at the head of the loop -/
  | loop (idx : ℕ)
  /-- the element before `idx` is cleared; `read_idx` is read next -/
  | next (idx : ℕ)
  /-- out of the loop -/
  | leave (idx : ℕ)
  /-- `ring_idx_to_clear` is written -/
  | stored
  /-- the ring was seen empty; `ring_idx_clear_pending` is written next -/
  | drop
  deriving DecidableEq, Repr

/-- The ring and its parties. -/
structure F2a where
  ring : RingCtx
  call : ClearCall
  /-- every element whose attach returned TRUE, in order -/
  attached : List Element
  /-- how many of them the host has read -/
  read : ℕ
  /-- every element that was passed to the clear function with success, in order -/
  cleared : List Element

/-- What the clear functions leave of an element. -/
def Element.clear (e : Element) : Element := { e with pBuf := 0, len := 0, pBufStart := 0 }

namespace F2a

/-- After `ringif_create_f2a_ring`, with the read index as it was found. -/
def create (numElem readIdx : ℕ) : F2a := ⟨.createF2aRing numElem readIdx, .idle, [], 0, []⟩

/-- A whole call of `ringif_f2a_pkt_attach`. -/
def attach (s : F2a) (p : Packet) : F2a :=
  let r := s.ring.f2aPktAttach p.elem
  { s with ring := r.2, attached := if r.1 then s.attached ++ [p.elem] else s.attached }

/-- The host moves the read index, and not past the write index. -/
def host (s : F2a) (k : ℕ) : F2a :=
  if s.read + k ≤ s.attached.length then
    { s with
      ring := { s.ring with readIdx := (s.ring.readIdx + k) % s.ring.ringNumElem }
      read := s.read + k }
  else s

/-- The next statement of `ringif_f2a_clear_used_bufs`. -/
def clear (s : F2a) (ok : Bool) : F2a :=
  match s.call with
  | .idle => { s with call := .gotRead s.ring.readIdx }
  | .gotRead r => { s with call := .gotWrite r s.ring.writeIdx }
  | .gotWrite r w =>
    if s.ring.ringIdxToClear = r ∧ (w ≠ r ∨ s.ring.ringBufFull s.ring.ringIdxToClear = false) then
      { s with call := .idle }
    else { s with call := .loop s.ring.ringIdxToClear }
  | .loop idx =>
    let e := s.ring.elem idx
    if e.Filled ∧ ok then
      { s with
        ring := s.ring.setElem idx e.clear
        call := .next ((idx + 1) % s.ring.ringNumElem)
        cleared := s.cleared ++ [e] }
    else { s with call := .leave idx }
  | .next idx => if idx = s.ring.readIdx then { s with call := .leave idx } else { s with call := .loop idx }
  | .leave idx => { s with ring := { s.ring with ringIdxToClear := idx }, call := .stored }
  | .stored => if s.ring.ringEmpty then { s with call := .drop } else { s with call := .idle }
  | .drop => { s with ring := { s.ring with ringIdxClearPending := false }, call := .idle }

end F2a

/-! ### The indices and the slots -/

/-- The clearing thread stands at index `i`, and goes into the loop only if `more`, that is if the host has
    read the element there. -/
def ClearCall.Stands (i : ℕ) (more : Prop) (toClear : ℕ) : ClearCall → Prop
  | .idle | .stored | .drop => toClear = i
  | .gotRead r | .gotWrite r _ => toClear = i ∧ (toClear ≠ r → more)
  | .loop idx => idx = i ∧ more
  | .next idx | .leave idx => idx = i

theorem ClearCall.Stands.mono {i t : ℕ} {p q : Prop} {c : ClearCall} (h : c.Stands i p t) (hpq : p → q) :
    c.Stands i q t := by
  cases c <;> simp only [Stands] at h ⊢ <;> tauto

namespace F2a

/-- `b` is where the ring of `n` elements started. The element at the write index may be in the hands of an attach
    that has not moved the index yet. -/
structure Inv (b n : ℕ) (held : Prop) (s : F2a) : Prop where
  two : 2 ≤ n
  num : s.ring.ringNumElem = n
  cleared_le : s.cleared.length ≤ s.read
  read_le : s.read ≤ s.attached.length
  lap : s.attached.length ≤ s.cleared.length + n
  /-- one slot stays free between the write index and the read index -/
  room : s.attached.length < s.read + n
  write : s.ring.writeIdx = (b + s.attached.length) % n
  readIdx : s.ring.readIdx = (b + s.read) % n
  order : s.cleared = s.attached.take s.cleared.length
  used : ∀ j, s.cleared.length ≤ j → j < s.attached.length →
    s.attached[j]? = some (s.ring.elem ((b + j) % n)) ∧ (s.ring.elem ((b + j) % n)).Filled
  free : ∀ j, s.attached.length ≤ j → j < s.cleared.length + n → (held → j ≠ s.attached.length) →
    (s.ring.elem ((b + j) % n)).Empty
  ahead : held → s.attached.length < s.cleared.length + n ∧ s.attached.length + 1 < s.read + n
  place : s.call.Stands ((b + s.cleared.length) % n) (s.cleared.length < s.read) s.ring.ringIdxToClear

variable {b n : ℕ} {held : Prop} {s : F2a}

theorem inv_create (hn : 2 ≤ n) (r : ℕ) : Inv (create n r).ring.writeIdx n False (create n r) := by
  have hlt : (if r < n then r else 0) < n := by split <;> omega
  refine ⟨hn, ?_, ?_, ?_, ?_, ?_, ?_, ?_, ?_, ?_, ?_, False.elim, ?_⟩ <;>
    simp [create, RingCtx.createF2aRing, ClearCall.Stands, Nat.mod_eq_of_lt hlt, Element.zero_empty]
  omega

namespace Inv

theorem pos (h : Inv b n held s) : 0 < n := by have := h.two; omega

/-- The indices as counts. -/
theorem full_iff (h : Inv b n held s) : s.ring.ringFull = true ↔ s.attached.length + 1 = s.read + n := by
  have hw := Nat.mod_lt (b + s.attached.length) h.pos
  have hr := Nat.mod_lt (b + s.read) h.pos
  have hle := h.read_le
  have hroom := h.room
  have hiff := mod_eq_mod_iff_lap (n := n) (x := b + s.read) (y := b + s.attached.length + 1) h.pos
    (by omega) (by omega)
  simp only [RingCtx.ringFull, h.num, h.write, h.readIdx, if_neg hw.not_ge, if_neg hr.not_ge, succ_mod,
    decide_eq_true_eq, hiff]
  omega

theorem empty_iff (h : Inv b n held s) : s.ring.ringEmpty = true ↔ s.attached.length = s.read := by
  have hw := Nat.mod_lt (b + s.attached.length) h.pos
  have hr := Nat.mod_lt (b + s.read) h.pos
  have hle := h.read_le
  have hroom := h.room
  have hiff := mod_eq_mod_iff_lap (n := n) (x := b + s.read) (y := b + s.attached.length) h.pos
    (by omega) (by omega)
  simp only [RingCtx.ringEmpty, h.num, h.write, h.readIdx, if_neg hw.not_ge, if_neg hr.not_ge,
    decide_eq_true_eq, hiff]
  omega

/-- The element the next packet goes to is free, unless the ring is used all round. -/
theorem write_empty_iff (h : Inv b n held s) (hfree : ¬ held) :
    (s.ring.elem s.ring.writeIdx).Empty ↔ s.attached.length < s.cleared.length + n := by
  rw [h.write]
  constructor
  · intro he
    by_contra hc
    have hlap : s.attached.length = s.cleared.length + n := by have := h.lap; omega
    have hlap' : b + s.attached.length = b + s.cleared.length + n := by omega
    rw [hlap', Nat.add_mod_right] at he
    exact (h.used _ le_rfl (by have := h.pos; omega)).2.not_empty he
  · intro hlt
    exact h.free _ le_rfl hlt fun hh => absurd hh hfree

/-- The element before the next one to be cleared. -/
theorem prev_eq (h : Inv b n held s) : (if (b + s.cleared.length) % n = 0 then s.ring.ringNumElem - 1
    else (b + s.cleared.length) % n - 1) = (b + (s.cleared.length + n - 1)) % n := by
  have htwo := h.two
  have hlt := Nat.mod_lt (b + s.cleared.length) h.pos
  have he : b + (s.cleared.length + n - 1) = b + s.cleared.length + (n - 1) := by omega
  rw [h.num, he, mod_add_le (i := b + s.cleared.length) (d := n - 1) h.pos (by omega)]
  split <;> split <;> omega

/-- The two neighbouring elements are in use when the ring is used all round. -/
theorem bufFull_of_lap (h : Inv b n held s) (hfull : s.attached.length = s.cleared.length + n) :
    s.ring.ringBufFull ((b + s.cleared.length) % n) = true := by
  have htwo := h.two
  simp only [RingCtx.ringBufFull, h.prev_eq, decide_eq_true_eq]
  exact ⟨(h.used _ le_rfl (by omega)).2.not_empty, (h.used _ (by omega) (by omega)).2.not_empty⟩

/-- They are in use only when the host has something read that is not cleared. -/
theorem lt_of_bufFull (h : Inv b n held s) (hf : s.ring.ringBufFull ((b + s.cleared.length) % n) = true) :
    s.cleared.length < s.read := by
  have htwo := h.two
  have hroom := h.room
  simp only [RingCtx.ringBufFull, h.prev_eq, decide_eq_true_eq] at hf
  by_contra hc
  by_cases hlast : held ∧ s.cleared.length + n - 1 = s.attached.length
  · -- the element before is being stored, and the call has seen room for one more
    obtain ⟨-, hahead⟩ := h.ahead hlast.1
    omega
  · exact hf.2 (h.free _ (by omega) (by omega) fun hh he => hlast ⟨hh, he⟩)

/-- The clearing thread moves, and touches nothing but its own fields. -/
theorem moved (h : Inv b n held s) (c : ClearCall) (i : ℕ) (p : Bool)
    (hc : c.Stands ((b + s.cleared.length) % n) (s.cleared.length < s.read) i) :
    Inv b n held { s with ring := { s.ring with ringIdxToClear := i, ringIdxClearPending := p }, call := c } :=
  ⟨h.two, h.num, h.cleared_le, h.read_le, h.lap, h.room, h.write, h.readIdx, h.order, h.used, h.free, h.ahead, hc⟩

/-- The element at the write index is stored to, where it is free and the ring is not full. -/
theorem stores (h : Inv b n held s) (hlap : s.attached.length < s.cleared.length + n)
    (hroom : s.attached.length + 1 < s.read + n) (e : Element) :
    Inv b n True { s with ring := s.ring.setElem s.ring.writeIdx e } := by
  have hle := h.cleared_le
  have hle' := h.read_le
  -- the other slots of the lap are not the one written
  have hkeep : ∀ j, s.cleared.length ≤ j → j < s.cleared.length + n → j ≠ s.attached.length →
      (s.ring.setElem s.ring.writeIdx e).elem ((b + j) % n) = s.ring.elem ((b + j) % n) := by
    intro j hj hj' hne
    rw [h.write]
    exact RingCtx.setElem_elem_of_lap _ _ hj hj' (hle.trans hle') hlap hne
  refine ⟨h.two, h.num, hle, hle', h.lap, h.room, h.write, h.readIdx, h.order, ?_, ?_, fun _ => ⟨hlap, hroom⟩, h.place⟩
  · intro j hj hlt
    dsimp only at hlt ⊢
    rw [hkeep j hj (by omega) hlt.ne]
    exact h.used j hj hlt
  · intro j hj hlt hne
    dsimp only at hj hlt hne ⊢
    rw [hkeep j (by omega) hlt (hne trivial)]
    exact h.free j hj hlt fun _ => hne trivial

/-- With a packet in it, the write index moves on. -/
theorem published (h : Inv b n True s) {p : Packet} (he : s.ring.elem s.ring.writeIdx = p.elem) :
    Inv b n False { s with
      ring := { s.ring with writeIdx := (s.ring.writeIdx + 1) % s.ring.ringNumElem }
      attached := s.attached ++ [p.elem] } := by
  obtain ⟨hlap, hroom⟩ := h.ahead trivial
  have hle := h.cleared_le
  have hle' := h.read_le
  have hlen : (s.attached ++ [p.elem]).length = s.attached.length + 1 := by simp
  refine ⟨h.two, h.num, hle, ?_, ?_, ?_, ?_, h.readIdx, ?_, ?_, ?_, False.elim, h.place⟩
  · exact hle'.trans (by simp)
  · simpa using hlap
  · simpa using hroom
  · simp only [h.num, h.write, hlen, succ_mod, Nat.add_assoc]
  · rw [List.take_append_of_le_length (hle.trans hle')]
    exact h.order
  · intro j hj hlt
    rw [hlen] at hlt
    rcases Nat.lt_succ_iff_lt_or_eq.mp hlt with hlt' | rfl
    · rw [List.getElem?_append_left hlt']
      exact h.used j hj hlt'
    · rw [h.write] at he
      simpa [he] using p.filled
  · intro j hj hlt _
    rw [hlen] at hj
    exact h.free j (by omega) hlt fun _ => by omega

/-- An attach goes to a free element, and is refused otherwise. -/
theorem attach_cases (h : Inv b n False s) (p : Packet) :
    s.attach p = s ∨
    (s.attached.length + 1 < s.read + n ∧ s.attached.length < s.cleared.length + n ∧
      s.attach p = { s with
        ring := { s.ring.setElem s.ring.writeIdx p.elem with
          writeIdx := (s.ring.writeIdx + 1) % s.ring.ringNumElem
          ringIdxClearPending := true }
        attached := s.attached ++ [p.elem] }) := by
  by_cases hf : s.ring.ringFull = true
  · exact .inl (by simp [attach, RingCtx.f2aPktAttach, hf])
  by_cases he : (s.ring.elem s.ring.writeIdx).Empty
  · refine .inr ⟨?_, (h.write_empty_iff id).mp he, by simp [attach, RingCtx.f2aPktAttach, hf, he]⟩
    have hroom := h.room
    have hne := mt h.full_iff.mpr hf
    omega
  · exact .inl (by simp [attach, RingCtx.f2aPktAttach, hf, he])

theorem attach (h : Inv b n False s) (p : Packet) : Inv b n False (s.attach p) := by
  obtain he | ⟨hroom, hlap, he⟩ := h.attach_cases p
  · rwa [he]
  rw [he]
  have hstored := h.stores hlap hroom p.elem
  exact (hstored.published (p := p) (by simp)).moved s.call s.ring.ringIdxToClear true h.place

theorem host (h : Inv b n held s) (k : ℕ) : Inv b n held (s.host k) := by
  rw [F2a.host]
  split
  · rename_i hk
    have hle := h.cleared_le
    have hroom := h.room
    refine ⟨h.two, h.num, by simp only; omega, hk, h.lap, by simp only; omega, h.write, ?_, h.order, h.used,
      h.free, fun hh => ?_, h.place.mono fun hm => by simp only; omega⟩
    · simp only [h.num, h.readIdx, Nat.mod_add_mod, Nat.add_assoc]
    · obtain ⟨hlap, hahead⟩ := h.ahead hh
      exact ⟨hlap, by dsimp only; omega⟩
  · exact h

/-- The element at the head of the loop is the next one in attach order. -/
theorem head (h : Inv b n held s) (hm : s.cleared.length < s.read) :
    s.attached[s.cleared.length]? = some (s.ring.elem ((b + s.cleared.length) % n)) ∧
      (s.ring.elem ((b + s.cleared.length) % n)).Filled :=
  h.used _ le_rfl (hm.trans_le h.read_le)

/-- It is cleared. -/
theorem cleared (h : Inv b n held s) (hm : s.cleared.length < s.read) :
    Inv b n held { s with
      ring := s.ring.setElem ((b + s.cleared.length) % n) (s.ring.elem ((b + s.cleared.length) % n)).clear
      call := .next (((b + s.cleared.length) % n + 1) % s.ring.ringNumElem)
      cleared := s.cleared ++ [s.ring.elem ((b + s.cleared.length) % n)] } := by
  obtain ⟨hget, -⟩ := h.head hm
  set e := s.ring.elem ((b + s.cleared.length) % n) with he
  have hlap := h.lap
  have hle := h.read_le
  have hlen : (s.cleared ++ [e]).length = s.cleared.length + 1 := by simp
  have hkeep : ∀ j, s.cleared.length < j → j < s.cleared.length + n →
      (s.ring.setElem ((b + s.cleared.length) % n) e.clear).elem ((b + j) % n) = s.ring.elem ((b + j) % n) :=
    fun j hj hj' => RingCtx.setElem_elem_of_ne _ _ (mod_ne_mod_of_lt (by omega) (by omega)).symm
  refine ⟨h.two, h.num, ?_, hle, ?_, h.room, h.write, h.readIdx, ?_, ?_, ?_, fun hh => ?_, ?_⟩
  · rw [hlen]
    exact hm
  · rw [hlen]
    dsimp only
    omega
  · rw [hlen, List.take_add_one, ← h.order, hget, Option.toList_some]
  · intro j hj hlt
    rw [hlen] at hj
    dsimp only at hlt ⊢
    simpa only [hkeep j (by omega) (by omega)] using h.used j (by omega) hlt
  · intro j hj hlt hne
    rw [hlen] at hlt
    dsimp only at hj hne ⊢
    by_cases hlast : j = s.cleared.length + n
    · have hidx : (b + j) % n = (b + s.cleared.length) % n := by
        rw [hlast, ← Nat.add_assoc, Nat.add_mod_right]
      simp only [hidx, RingCtx.setElem_elem_self]
      exact ⟨rfl, rfl⟩
    · simpa only [hkeep j (by omega) (by omega)] using h.free j hj (by omega) hne
  · obtain ⟨hahead, hroom⟩ := h.ahead hh
    exact ⟨by rw [hlen]; dsimp only; omega, hroom⟩
  · simp only [ClearCall.Stands, h.num, hlen, succ_mod, Nat.add_assoc]

/-- Every statement of the clearing thread keeps the indices and the slots. -/
theorem clear (h : Inv b n held s) (ok : Bool) : Inv b n held (s.clear ok) := by
  have hp := h.place
  have hle := h.cleared_le
  rw [F2a.clear]
  cases hc : s.call with
  | idle =>
    rw [hc] at hp
    refine h.moved _ _ _ ⟨hp, fun hne => ?_⟩
    rcases Nat.lt_or_eq_of_le hle with hlt | heq
    · exact hlt
    · exact absurd (by rw [hp, h.readIdx, heq]) hne
  | gotRead r =>
    rw [hc] at hp
    exact h.moved _ _ _ hp
  | gotWrite r w =>
    rw [hc] at hp
    dsimp only
    split
    · exact h.moved _ _ _ hp.1
    · rename_i hcond
      refine h.moved _ _ _ ⟨hp.1, ?_⟩
      by_cases hr : s.ring.ringIdxToClear = r
      · -- the ring looks used all round, so the host has read on
        have hfull : s.ring.ringBufFull s.ring.ringIdxToClear = true := by
          by_contra hf
          exact hcond ⟨hr, .inr (by simpa using hf)⟩
        rw [hp.1] at hfull
        exact h.lt_of_bufFull hfull
      · exact hp.2 hr
  | loop idx =>
    rw [hc] at hp
    obtain ⟨rfl, hm⟩ := hp
    dsimp only
    split
    · exact h.cleared hm
    · exact h.moved _ _ _ rfl
  | next idx =>
    rw [hc] at hp
    dsimp only
    split
    · exact h.moved _ _ _ hp
    · rename_i hne
      refine h.moved _ _ _ ⟨hp, lt_of_le_of_ne hle fun heq => hne ?_⟩
      rw [h.readIdx, ← heq]
      exact hp
  | leave idx =>
    rw [hc] at hp
    exact h.moved _ _ _ hp
  | stored =>
    rw [hc] at hp
    dsimp only
    split <;> exact h.moved _ _ _ hp
  | drop =>
    rw [hc] at hp
    exact h.moved _ _ _ hp

/-- A statement of the clearing thread leaves the element at the write index alone. -/
theorem clear_write (h : Inv b n held s) (hlap : s.attached.length < s.cleared.length + n) (ok : Bool) :
    (s.clear ok).ring.elem s.ring.writeIdx = s.ring.elem s.ring.writeIdx := by
  have hp := h.place
  have hle := h.read_le
  rw [F2a.clear]
  cases hc : s.call with
  | idle => rfl
  | gotRead r => rfl
  | gotWrite r w =>
    dsimp only
    split <;> rfl
  | loop idx =>
    rw [hc] at hp
    obtain ⟨rfl, hm⟩ := hp
    dsimp only
    split
    · rw [h.write]
      exact RingCtx.setElem_elem_of_lap _ _ (by omega) hlap le_rfl (by omega) (by omega)
    · rfl
  | next idx =>
    dsimp only
    split <;> rfl
  | leave idx => rfl
  | stored =>
    dsimp only
    split <;> rfl
  | drop => rfl

end Inv

/-- What it never touches, and what it only adds to. -/
theorem clear_keeps (s : F2a) (ok : Bool) :
    (s.clear ok).attached = s.attached ∧ (s.clear ok).read = s.read ∧
      (s.clear ok).ring.writeIdx = s.ring.writeIdx ∧ (s.clear ok).ring.ringNumElem = s.ring.ringNumElem ∧
      s.cleared.length ≤ (s.clear ok).cleared.length := by
  rw [F2a.clear]
  cases s.call with
  | idle => exact ⟨rfl, rfl, rfl, rfl, le_rfl⟩
  | gotRead r => exact ⟨rfl, rfl, rfl, rfl, le_rfl⟩
  | gotWrite r w =>
    dsimp only
    split <;> exact ⟨rfl, rfl, rfl, rfl, le_rfl⟩
  | loop idx =>
    dsimp only
    split
    · exact ⟨rfl, rfl, rfl, rfl, by simp⟩
    · exact ⟨rfl, rfl, rfl, rfl, le_rfl⟩
  | next idx =>
    dsimp only
    split <;> exact ⟨rfl, rfl, rfl, rfl, le_rfl⟩
  | leave idx => exact ⟨rfl, rfl, rfl, rfl, le_rfl⟩
  | stored =>
    dsimp only
    split <;> exact ⟨rfl, rfl, rfl, rfl, le_rfl⟩
  | drop => exact ⟨rfl, rfl, rfl, rfl, le_rfl⟩

/-! ### One whole call -/

/-- The clearing thread runs alone, with a clear function that succeeds, until its call returns. -/
abbrev Alone : F2a → F2a → Prop := Until (fun s => s.clear true) (fun s => s.call = .idle)

/-- A whole call of `ringif_f2a_clear_used_bufs`, made in `s` and returning in `s'`. -/
def Returns (s s' : F2a) : Prop := s.call = .idle ∧ Alone (s.clear true) s'

/-- Out of the loop, the call returns with nothing else cleared. -/
theorem leave_alone {idx : ℕ} (hc : s.call = .leave idx) :
    ∃ s', Alone s s' ∧ s'.attached = s.attached ∧ s'.read = s.read ∧ s'.cleared = s.cleared := by
  have hstored : s.clear true = { s with ring := { s.ring with ringIdxToClear := idx }, call := .stored } := by
    simp [clear, hc]
  refine ⟨(if (s.clear true).ring.ringEmpty then (s.clear true).clear true |>.clear true
    else (s.clear true).clear true), ?_, ?_⟩
  · refine .more (by simp [hc]) (.more (by simp [hstored]) ?_)
    by_cases he : (s.clear true).ring.ringEmpty = true
    · rw [if_pos he]
      refine .more ?_ (.done ?_)
      · rw [hstored] at he ⊢
        simp [clear, he]
      · rw [hstored] at he ⊢
        simp [clear, he]
    · rw [if_neg he]
      refine .done ?_
      rw [hstored] at he ⊢
      simp [clear, he]
  · rw [hstored]
    split <;> rename_i he <;> simp [clear, he]

/-- At the head of the loop the next element is cleared. -/
theorem loop_clear {idx : ℕ} (h : Inv b n held s) (hc : s.call = .loop idx) :
    (s.clear true).call = .next ((b + (s.cleared.length + 1)) % n) ∧ (s.clear true).attached = s.attached ∧
      (s.clear true).read = s.read ∧ (s.clear true).cleared.length = s.cleared.length + 1 := by
  have hp := h.place
  rw [hc] at hp
  obtain ⟨rfl, hm⟩ := hp
  simp [clear, hc, (h.head hm).2, h.num, Nat.add_assoc]

/-- After it, the loop goes on while the host has read more: a whole lap of the read index is excluded by the
    elements in the ring. -/
theorem next_clear {idx : ℕ} (h : Inv b n held s) (hc : s.call = .next idx)
    (hlap : s.attached.length < s.cleared.length + n) :
    s.clear true = { s with call := if s.cleared.length = s.read then .leave idx else .loop idx } := by
  have hp := h.place
  rw [hc] at hp
  have hle := h.cleared_le
  have hle' := h.read_le
  have hiff : idx = s.ring.readIdx ↔ s.cleared.length = s.read := by
    rw [hp, h.readIdx, mod_eq_mod_iff_lap h.pos (by omega) (by omega)]
    omega
  simp only [clear, hc, hiff]
  split <;> rfl

/-- From the head of the loop the call clears everything the host has read. -/
theorem loop_alone (d : ℕ) : ∀ {s : F2a} {idx : ℕ}, Inv b n held s → s.call = .loop idx →
    s.cleared.length + d + 1 = s.read →
    ∃ s', Alone s s' ∧ s'.attached = s.attached ∧ s'.read = s.read ∧ s'.cleared.length = s.read := by
  induction d with
  | zero =>
    intro s idx h hc hd
    obtain ⟨hcall, hatt, hread, hlen⟩ := loop_clear h hc
    have hle := h.lap
    have hnext := next_clear (h.clear true) hcall (by rw [hatt]; omega)
    rw [if_pos (by omega)] at hnext
    obtain ⟨s', ha, hatt', hread', hcl⟩ := leave_alone (s := (s.clear true).clear true) (by rw [hnext])
    refine ⟨s', .more (by simp [hc]) (.more (by simp [hcall]) ha), ?_, ?_, ?_⟩
    · rw [hatt', hnext, ← hatt]
    · rw [hread', hnext, ← hread]
    · rw [hcl, hnext]
      dsimp only
      omega
  | succ d ih =>
    intro s idx h hc hd
    obtain ⟨hcall, hatt, hread, hlen⟩ := loop_clear h hc
    have hle := h.lap
    have hnext := next_clear (h.clear true) hcall (by rw [hatt]; omega)
    rw [if_neg (by omega)] at hnext
    obtain ⟨s', ha, hatt', hread', hcl⟩ := ih (s := (s.clear true).clear true) ((h.clear true).clear true)
      (by rw [hnext]) (by rw [hnext]; dsimp only; omega)
    refine ⟨s', .more (by simp [hc]) (.more (by simp [hcall]) ha), ?_, ?_, ?_⟩
    · rw [hatt', hnext, ← hatt]
    · rw [hread', hnext, ← hread]
    · rw [hcl, hnext, ← hread]

/-- A call that nobody interrupts clears everything the host has read. -/
theorem call_returns (h : Inv b n held s) (hc : s.call = .idle) :
    ∃ s', Returns s s' ∧ s'.attached = s.attached ∧ s'.read = s.read ∧ s'.cleared.length = s.read := by
  have hp := h.place
  rw [hc] at hp
  have hle := h.cleared_le
  have hle' := h.read_le
  have hlap := h.lap
  have hroom := h.room
  -- the two reads change nothing
  set t : F2a := { s with call := .gotWrite s.ring.readIdx s.ring.writeIdx } with ht
  have hfirst : (s.clear true).clear true = t := by simp [clear, hc, ht]
  have hgot : (s.clear true).call = .gotRead s.ring.readIdx := by simp [clear, hc]
  have hreads : ∀ s', Alone (t.clear true) s' → Returns s s' := fun s' ha =>
    ⟨hc, .more (by simp [hgot]) (hfirst ▸ .more (by simp [ht]) ha)⟩
  have hinv : Inv b n held (t.clear true) := hfirst ▸ ((h.clear true).clear true).clear true
  by_cases heq : s.cleared.length = s.read
  · -- the index is at the read index and the ring is not used all round: the call returns at once
    have hback : t.clear true = { s with call := .idle } := by
      have hw : s.ring.writeIdx ≠ s.ring.readIdx ∨ s.ring.ringBufFull s.ring.ringIdxToClear = false := by
        refine .inr (by_contra fun hf => ?_)
        rw [Bool.not_eq_false, hp] at hf
        have := h.lt_of_bufFull hf
        omega
      have htc : s.ring.ringIdxToClear = s.ring.readIdx := by rw [hp, h.readIdx, heq]
      simp only [clear, ht, if_pos (And.intro htc hw)]
    exact ⟨_, hreads _ (.done (by rw [hback])), by rw [hback], by rw [hback], by rw [hback]; exact heq⟩
  · have hloop : t.clear true = { s with call := .loop s.ring.ringIdxToClear } := by
      have hno : ¬ (s.ring.ringIdxToClear = s.ring.readIdx ∧ (s.ring.writeIdx ≠ s.ring.readIdx ∨
          s.ring.ringBufFull s.ring.ringIdxToClear = false)) := by
        rintro ⟨htc, hw⟩
        rw [hp, h.readIdx, mod_eq_mod_iff_lap h.pos (by omega) (by omega)] at htc
        have hall : s.attached.length = s.cleared.length + n := by omega
        rw [hp, h.bufFull_of_lap hall, h.write, h.readIdx] at hw
        have : s.attached.length = s.read := by omega
        simp [this] at hw
      simp only [clear, ht, if_neg hno]
    obtain ⟨d, hd⟩ := Nat.exists_eq_add_of_lt (lt_of_le_of_ne hle heq)
    obtain ⟨s', ha, hatt, hread, hcl⟩ := loop_alone d (s := t.clear true) hinv (by rw [hloop])
      (by rw [hloop]; exact hd.symm)
    refine ⟨s', hreads s' ha, ?_, ?_, ?_⟩
    · rw [hatt, hloop]
    · rw [hread, hloop]
    · rw [hcl, hloop]

end F2a

end Qcc730.Ring
