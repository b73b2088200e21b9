import Qcc730.Lib.Reach
import Qcc730.Ring.Context

/-! A host-to-firmware data ring.

    The host puts packets into the buffers the firmware supplies and moves the write index; the thread of the
    ring takes them in `ringif_a2f_process_pkts`, puts a new buffer into each element and moves the read index.
    The call is cut at its reads and writes of the shared ring and the host may act between any two of them.
    Either callback may fail at any time: a packet that is not processed stays where it is, and an element
    whose refill fails is zeroed and met again by the next call. -/

namespace Qcc730.Ring
open Lib

/-- The loop of `ringif_a2f_refill_bufs`, over at most `fuel` elements. -/
def RingCtx.refillFrom (pfnRefillElem : ℕ → Option Packet) : ℕ → ℕ → RingCtx → Bool × RingCtx
  | 0, _, c => (true, c)
  | fuel + 1, idx, c =>
    let next := fun c : RingCtx =>
      if (idx + 1) % c.ringNumElem = c.readIdx then (true, c)
      else refillFrom pfnRefillElem fuel ((idx + 1) % c.ringNumElem) c
    if (c.elem idx).pBuf = 0 then
      match pfnRefillElem idx with
      | none => (false, c)
      | some p => next (c.setElem idx p.elem)
    else next c

/-- `ringif_a2f_refill_bufs`. The loop ends after one lap. -/
def RingCtx.a2fRefillBufs (c : RingCtx) (pfnRefillElem : ℕ → Option Packet) : Bool × RingCtx :=
  if c.ringFull then (true, c) else refillFrom pfnRefillElem c.ringNumElem c.writeIdx c

/-- Where a call of `ringif_a2f_process_pkts` stands. -/
inductive ProcessCall where
  /-- no call is under way -/
  | idle
  /-- at the head of the loop -/
  | loop (idx : ℕ)
  /-- the write index is further on: the element is processed next, if it has a buffer -/
  | item (idx : ℕ)
  /-- it is processed and refilled next -/
  | refill (idx : ℕ)
  /-- it is refilled; the read index is written next -/
  | advance (idx : ℕ)
  deriving DecidableEq, Repr

/-- The ring and its parties. -/
structure A2f where
  ring : RingCtx
  call : ProcessCall
  /-- the packets of the host, in order -/
  written : List Element
  /-- every element that was passed to `pfn_process` with success, in order -/
  processed : List Element
  /-- how often the read index was moved on -/
  read : ℕ

inductive A2fAct where
  /-- the host fills the buffer at the write index and moves on -/
  | host (len info : ℕ)
  /-- the thread of the ring gets one statement on; `ok` is what `pfn_process` returns and `fresh` what
      `pfn_refill` finds, if they are called -/
  | call (ok : Bool) (fresh : Option Packet)

namespace A2f

/-- After `ringif_create_a2f_ring`, with the write index as it was found, and `ringif_a2f_refill_bufs`. -/
def create (numElem writeIdx : ℕ) (pfnRefillElem : ℕ → Option Packet) : A2f :=
  ⟨((RingCtx.createA2fRing numElem writeIdx).a2fRefillBufs pfnRefillElem).2, .idle, [], [], 0⟩

/-- The host moves the write index only past an element with a buffer, and not onto the read index. -/
def host (s : A2f) (len info : ℕ) : A2f :=
  let e := { s.ring.elem s.ring.writeIdx with len := len, info := info }
  if e.pBuf ≠ 0 ∧ (s.ring.writeIdx + 1) % s.ring.ringNumElem ≠ s.ring.readIdx then
    { s with
      ring := { s.ring.setElem s.ring.writeIdx e with writeIdx := (s.ring.writeIdx + 1) % s.ring.ringNumElem }
      written := s.written ++ [e] }
  else s

/-- The next statement of `ringif_a2f_process_pkts`. -/
def process (s : A2f) (ok : Bool) (fresh : Option Packet) : A2f :=
  match s.call with
  | .idle => if s.ring.readIdx = s.ring.writeIdx then s else { s with call := .loop s.ring.readIdx }
  | .loop idx => if idx = s.ring.writeIdx then { s with call := .idle } else { s with call := .item idx }
  | .item idx =>
    let e := s.ring.elem idx
    if e.Filled then
      if ok then { s with call := .refill idx, processed := s.processed ++ [e] } else { s with call := .idle }
    else { s with call := .refill idx }
  | .refill idx =>
    match fresh with
    | none => { s with ring := s.ring.setElem idx .zero, call := .idle }
    | some p => { s with ring := s.ring.setElem idx p.elem, call := .advance idx }
  | .advance idx =>
    { s with
      ring := { s.ring with readIdx := (idx + 1) % s.ring.ringNumElem }
      call := .loop ((idx + 1) % s.ring.ringNumElem)
      read := s.read + 1 }

def act (s : A2f) : A2fAct → A2f
  | .host len info => s.host len info
  | .call ok fresh => s.process ok fresh

/-- One step of one of the parties. -/
def Step (s s' : A2f) : Prop := ∃ a, s' = s.act a

end A2f

/-! ### The first filling -/

/-- A ring that starts at `b` and whose first `k` elements are filled, the others empty. -/
structure FilledTo (b n k : ℕ) (c : RingCtx) : Prop where
  num : c.ringNumElem = n
  readIdx : c.readIdx = b
  writeIdx : c.writeIdx = b
  below : ∀ j < k, (c.elem ((b + j) % n)).Filled
  above : ∀ j, k ≤ j → j < n → (c.elem ((b + j) % n)).Empty

theorem FilledTo.succ {b n k : ℕ} {c : RingCtx} (h : FilledTo b n k c) (hk : k < n) (p : Packet) :
    FilledTo b n (k + 1) (c.setElem ((b + k) % n) p.elem) := by
  refine ⟨h.num, h.readIdx, h.writeIdx, fun j hj => ?_, fun j hj hlt => ?_⟩
  · rcases Nat.lt_succ_iff_lt_or_eq.mp hj with hlt | rfl
    · rw [RingCtx.setElem_elem_of_ne _ _ (mod_ne_mod_of_lt (by omega) (by omega))]
      exact h.below j hlt
    · rw [RingCtx.setElem_elem_self]
      exact p.filled
  · rw [RingCtx.setElem_elem_of_ne _ _ (mod_ne_mod_of_lt (by omega) (by omega)).symm]
    exact h.above j (by omega) hlt

/-- The loop fills the elements in order up to the first failure, and all of them exactly if there is none. -/
theorem refillFrom_filledTo {b n : ℕ} (hb : b < n) (f : ℕ → Option Packet) (fuel : ℕ) :
    ∀ {k : ℕ} {c : RingCtx}, k + fuel = n → 0 < fuel → FilledTo b n k c →
    ∃ m ≤ n, FilledTo b n m (RingCtx.refillFrom f fuel ((b + k) % n) c).2 ∧
      ((RingCtx.refillFrom f fuel ((b + k) % n) c).1 = true ↔ m = n) := by
  induction fuel with
  | zero => intro k c _ h0; omega
  | succ fuel ih =>
    intro k c hk _ h
    have hnull : (c.elem ((b + k) % n)).pBuf = 0 := (h.above k le_rfl (by omega)).1
    rw [RingCtx.refillFrom, if_pos hnull]
    cases hf : f ((b + k) % n) with
    | none => exact ⟨k, by omega, h, by simp; omega⟩
    | some p =>
      have hs := h.succ (by omega) p
      have hlap := mod_eq_mod_iff_lap (n := n) (x := b) (y := b + (k + 1)) (by omega) (by omega) (by omega)
      rw [Nat.mod_eq_of_lt hb, eq_comm] at hlap
      simp only [hs.num, hs.readIdx, succ_mod, Nat.add_assoc, hlap]
      by_cases hend : b + (k + 1) = b ∨ b + (k + 1) = b + n
      · rw [if_pos hend]
        exact ⟨k + 1, by omega, hs, by simp; omega⟩
      · rw [if_neg hend]
        exact ih (by omega) (by omega) hs

/-! ### The indices and the slots -/

/-- The thread of the ring stands at index `i`, whose element is `e`. `more`: there is a packet. `again`: it was
    processed already; then its element is empty until it is refilled. -/
def ProcessCall.Stands (i : ℕ) (e : Element) (more again : Prop) : ProcessCall → Prop
  | .idle => again → e.Empty
  | .loop idx => idx = i ∧ (again → e.Empty)
  | .item idx => idx = i ∧ more ∧ (again → e.Empty)
  | .refill idx => idx = i ∧ again
  | .advance idx => idx = i ∧ again ∧ e.Filled

namespace A2f

/-- `b` is where the ring of `n` elements started, and `whole` says that the first filling succeeded. -/
structure Inv (b n : ℕ) (whole : Bool) (s : A2f) : Prop where
  two : 2 ≤ n
  num : s.ring.ringNumElem = n
  read_le : s.read ≤ s.written.length
  room : s.written.length < s.read + n
  write : s.ring.writeIdx = (b + s.written.length) % n
  readIdx : s.ring.readIdx = (b + s.read) % n
  order : s.processed = s.written.take s.processed.length
  once : s.processed.length = s.read ∨ s.processed.length = s.read + 1 ∧ s.read < s.written.length
  due : ∀ j, s.processed.length ≤ j → j < s.written.length →
    s.written[j]? = some (s.ring.elem ((b + j) % n)) ∧ (s.ring.elem ((b + j) % n)).Filled
  /-- an element that the host owns and that has no buffer never got one -/
  out : ∀ j, s.written.length ≤ j → j < s.read + n →
    (s.ring.elem ((b + j) % n)).Filled ∨ ((s.ring.elem ((b + j) % n)).Empty ∧ j < n ∧ whole = false)
  place : s.call.Stands ((b + s.read) % n) (s.ring.elem ((b + s.read) % n)) (s.read < s.written.length)
    (s.processed.length = s.read + 1)

variable {b n : ℕ} {whole : Bool} {s : A2f}

/-- A new ring after the first filling. -/
theorem create_filledTo (hn : 2 ≤ n) (w : ℕ) (f : ℕ → Option Packet) :
    ∃ m ≤ n, FilledTo (RingCtx.createA2fRing n w).writeIdx n m (create n w f).ring ∧
      (((RingCtx.createA2fRing n w).a2fRefillBufs f).1 = true ↔ m = n) := by
  set b := (RingCtx.createA2fRing n w).writeIdx with hb
  have hlt : b < n := RingCtx.createA2fRing_lt (by omega) w
  have hnew : FilledTo b n 0 (RingCtx.createA2fRing n w) :=
    ⟨rfl, rfl, rfl, by simp, fun _ _ _ => Element.zero_empty⟩
  obtain ⟨m, hm, hto, hall⟩ := refillFrom_filledTo hlt f n (k := 0) (by omega) (by omega) hnew
  have hrun : (RingCtx.createA2fRing n w).a2fRefillBufs f =
      RingCtx.refillFrom f n ((b + 0) % n) (RingCtx.createA2fRing n w) := by
    rw [RingCtx.a2fRefillBufs, RingCtx.createA2fRing_not_full hn, Nat.add_zero, Nat.mod_eq_of_lt hlt]
    rfl
  rw [← hrun] at hto hall
  exact ⟨m, hm, hto, hall⟩

theorem inv_create (hn : 2 ≤ n) (w : ℕ) (f : ℕ → Option Packet) :
    Inv (RingCtx.createA2fRing n w).writeIdx n ((RingCtx.createA2fRing n w).a2fRefillBufs f).1
      (create n w f) := by
  set b := (RingCtx.createA2fRing n w).writeIdx with hb
  have hlt : b < n := RingCtx.createA2fRing_lt (by omega) w
  obtain ⟨m, hm, hto, hall⟩ := create_filledTo hn w f
  refine ⟨hn, hto.num, le_rfl, ?_, ?_, ?_, rfl, .inl rfl, ?_, ?_, ?_⟩
  · simp [create]
    omega
  · rw [hto.writeIdx, ← hb]
    simp [create, Nat.mod_eq_of_lt hlt]
  · rw [hto.readIdx, ← hb]
    simp [create, Nat.mod_eq_of_lt hlt]
  · simp [create]
  · intro j _ hj
    have hj' : j < n := by simpa [create] using hj
    by_cases hjm : j < m
    · exact .inl (hto.below j hjm)
    · refine .inr ⟨hto.above j (by omega) hj', hj', ?_⟩
      by_contra hw
      have := hall.mp (by simpa using hw)
      omega
  · simp [create, ProcessCall.Stands]

namespace Inv

theorem pos (h : Inv b n whole s) : 0 < n := by have := h.two; omega

theorem read_eq_write_iff (h : Inv b n whole s) : (b + s.read) % n = s.ring.writeIdx ↔ s.read = s.written.length := by
  have hle := h.read_le
  have hroom := h.room
  rw [h.write, mod_eq_mod_iff_lap h.pos (by omega) (by omega)]
  omega

/-- The host goes on over an element with a buffer while one is left between it and the read index. -/
theorem host_cases (h : Inv b n whole s) (len info : ℕ) :
    s.host len info = s ∨
    (s.written.length + 1 < s.read + n ∧ (s.ring.elem ((b + s.written.length) % n)).Filled ∧
      s.host len info = { s with
        ring := { s.ring.setElem ((b + s.written.length) % n)
            { s.ring.elem ((b + s.written.length) % n) with len := len, info := info } with
          writeIdx := (b + (s.written.length + 1)) % n }
        written := s.written ++
          [{ s.ring.elem ((b + s.written.length) % n) with len := len, info := info }] }) := by
  have hle := h.read_le
  have hroom := h.room
  have hfull : (b + (s.written.length + 1)) % n ≠ (b + s.read) % n ↔ s.written.length + 1 < s.read + n := by
    have := mod_eq_mod_iff_lap (n := n) (x := b + s.read) (y := b + (s.written.length + 1)) h.pos (by omega)
      (by omega)
    rw [ne_comm, ne_eq, this]
    omega
  simp only [host, h.write, h.readIdx, h.num, succ_mod, Nat.add_assoc, hfull]
  split
  · rename_i hcond
    refine .inr ⟨hcond.2, ?_, rfl⟩
    rcases h.out s.written.length le_rfl hroom with hf | ⟨he, -⟩
    · exact hf
    · exact absurd he.1 hcond.1
  · exact .inl rfl

theorem host (h : Inv b n whole s) (len info : ℕ) : Inv b n whole (s.host len info) := by
  obtain he | ⟨hroom, hf, he⟩ := h.host_cases len info
  · rwa [he]
  rw [he]
  set e := { s.ring.elem ((b + s.written.length) % n) with len := len, info := info }
  have hle := h.read_le
  have hlen : (s.written ++ [e]).length = s.written.length + 1 := by simp
  have honce := h.once
  -- the other slots are not the one written
  have hkeep : ∀ j, s.read ≤ j → j < s.read + n → j ≠ s.written.length →
      (s.ring.setElem ((b + s.written.length) % n) e).elem ((b + j) % n) = s.ring.elem ((b + j) % n) := by
    intro j hj hj' hne
    exact RingCtx.setElem_elem_of_lap _ _ hj hj' hle (by omega) hne
  refine ⟨h.two, h.num, by simp only [hlen]; omega, by simpa only [hlen] using hroom, by simp only [hlen],
    h.readIdx, ?_, ?_, ?_, ?_, ?_⟩
  · dsimp only
    rw [List.take_append_of_le_length (by omega)]
    exact h.order
  · simp only [hlen]
    omega
  · intro j hj hlt
    simp only [hlen] at hj hlt ⊢
    rcases Nat.lt_succ_iff_lt_or_eq.mp hlt with hlt' | rfl
    · rw [List.getElem?_append_left hlt']
      simpa only [hkeep j (by omega) (by omega) hlt'.ne] using h.due j hj hlt'
    · have hfe : e.Filled := hf
      simpa using hfe
  · intro j hj hlt
    simp only [hlen] at hj ⊢
    simpa only [hkeep j (by omega) hlt (by omega)] using h.out j (by omega) hlt
  · -- a packet that was processed already is not where the host writes
    have hp := h.place
    simp only [hlen]
    rcases Nat.lt_or_eq_of_le hle with hlt | heq
    · simp only [hkeep s.read le_rfl (by omega) hlt.ne]
      cases hc : s.call <;> rw [hc] at hp <;> simp only [ProcessCall.Stands] at hp ⊢
      all_goals first | exact hp | exact ⟨hp.1, by omega, hp.2.2⟩
    · cases hc : s.call <;> rw [hc] at hp <;> simp only [ProcessCall.Stands] at hp ⊢
      · omega
      · exact ⟨hp.1, by omega⟩
      · omega
      · omega
      · omega

/-- The thread of the ring moves, and touches nothing. -/
theorem moved (h : Inv b n whole s) (c : ProcessCall)
    (hc : c.Stands ((b + s.read) % n) (s.ring.elem ((b + s.read) % n)) (s.read < s.written.length)
      (s.processed.length = s.read + 1)) : Inv b n whole { s with call := c } :=
  ⟨h.two, h.num, h.read_le, h.room, h.write, h.readIdx, h.order, h.once, h.due, h.out, hc⟩

/-- The packet at the read index is processed. -/
theorem processed (h : Inv b n whole s) (hm : s.read < s.written.length)
    (hf : (s.ring.elem ((b + s.read) % n)).Filled)
    (hagain : s.processed.length = s.read + 1 → (s.ring.elem ((b + s.read) % n)).Empty) :
    Inv b n whole { s with
      call := .refill ((b + s.read) % n)
      processed := s.processed ++ [s.ring.elem ((b + s.read) % n)] } := by
  have hlen : s.processed.length = s.read := by
    rcases h.once with he | ⟨he, -⟩
    · exact he
    · exact absurd (hagain he) hf.not_empty
  have hget := (h.due s.read hlen.le hm).1
  have hlen' : (s.processed ++ [s.ring.elem ((b + s.read) % n)]).length = s.read + 1 := by simp [hlen]
  refine ⟨h.two, h.num, h.read_le, h.room, h.write, h.readIdx, ?_, .inr ⟨hlen', hm⟩, ?_, h.out, rfl, hlen'⟩
  · rw [hlen', List.take_add_one, hget, ← hlen, ← h.order]
    rfl
  · intro j hj
    rw [hlen'] at hj
    exact h.due j (by omega)

/-- The element at the read index, whose packet was processed, is written by the firmware. -/
theorem refilled (h : Inv b n whole s) (ha : s.processed.length = s.read + 1) (e : Element) (c : ProcessCall)
    (hc : c.Stands ((b + s.read) % n) e (s.read < s.written.length) (s.processed.length = s.read + 1)) :
    Inv b n whole { s with ring := s.ring.setElem ((b + s.read) % n) e, call := c } := by
  have hroom := h.room
  have hm : s.read < s.written.length := by
    rcases h.once with he | ⟨-, hm⟩
    · omega
    · exact hm
  have hkeep : ∀ j, s.read < j → j < s.read + n →
      (s.ring.setElem ((b + s.read) % n) e).elem ((b + j) % n) = s.ring.elem ((b + j) % n) :=
    fun j hj hj' => RingCtx.setElem_elem_of_ne _ _ (mod_ne_mod_of_lt (by omega) (by omega)).symm
  refine ⟨h.two, h.num, h.read_le, hroom, h.write, h.readIdx, h.order, h.once, ?_, ?_, ?_⟩
  · intro j hj hlt
    dsimp only at hj hlt
    simpa only [hkeep j (by omega) (by omega)] using h.due j hj hlt
  · intro j hj hlt
    dsimp only at hj hlt
    simpa only [hkeep j (by omega) hlt] using h.out j hj hlt
  · simpa only [RingCtx.setElem_elem_self] using hc

/-- The read index moves past an element that was processed and refilled. -/
theorem advanced (h : Inv b n whole s) (ha : s.processed.length = s.read + 1)
    (hf : (s.ring.elem ((b + s.read) % n)).Filled) :
    Inv b n whole { s with
      ring := { s.ring with readIdx := ((b + s.read) % n + 1) % s.ring.ringNumElem }
      call := .loop (((b + s.read) % n + 1) % s.ring.ringNumElem)
      read := s.read + 1 } := by
  have hm : s.read < s.written.length := by
    rcases h.once with he | ⟨-, hm⟩
    · omega
    · exact hm
  have hidx : ((b + s.read) % n + 1) % s.ring.ringNumElem = (b + (s.read + 1)) % n := by
    rw [h.num, succ_mod, Nat.add_assoc]
  have hroom := h.room
  refine ⟨h.two, h.num, hm, by dsimp only; omega, h.write, hidx, h.order, .inl ha, h.due, ?_, hidx, ?_⟩
  · intro j hj hlt
    dsimp only at hj hlt ⊢
    by_cases hlast : j = s.read + n
    · have hj' : (b + j) % n = (b + s.read) % n := by rw [hlast, ← Nat.add_assoc, Nat.add_mod_right]
      rw [hj']
      exact .inl hf
    · exact h.out j hj (by omega)
  · intro hagain
    dsimp only at hagain
    omega

/-- Every statement of the thread of the ring keeps the indices and the slots. -/
theorem process (h : Inv b n whole s) (ok : Bool) (fresh : Option Packet) :
    Inv b n whole (s.process ok fresh) := by
  have hp := h.place
  rw [A2f.process]
  cases hc : s.call with
  | idle =>
    rw [hc] at hp
    dsimp only
    split
    · exact h
    · exact h.moved _ ⟨h.readIdx, hp⟩
  | loop idx =>
    rw [hc] at hp
    obtain ⟨rfl, hagain⟩ := hp
    dsimp only
    split
    · exact h.moved _ hagain
    · rename_i hne
      exact h.moved _ ⟨rfl, lt_of_le_of_ne h.read_le (mt h.read_eq_write_iff.mpr hne), hagain⟩
  | item idx =>
    rw [hc] at hp
    obtain ⟨rfl, hm, hagain⟩ := hp
    dsimp only
    split
    · rename_i hf
      split
      · exact h.processed hm hf hagain
      · exact h.moved _ hagain
    · -- no buffer: the packet was processed by an earlier call
      rename_i hf
      refine h.moved _ ⟨rfl, ?_⟩
      rcases h.once with he | ⟨he, -⟩
      · exact absurd (h.due s.read he.le hm).2 hf
      · exact he
  | refill idx =>
    rw [hc] at hp
    obtain ⟨rfl, ha⟩ := hp
    cases fresh with
    | none => exact h.refilled ha _ _ fun _ => Element.zero_empty
    | some p => exact h.refilled ha _ _ ⟨rfl, ha, p.filled⟩
  | advance idx =>
    rw [hc] at hp
    obtain ⟨rfl, ha, hf⟩ := hp
    exact h.advanced ha hf

theorem act (h : Inv b n whole s) (a : A2fAct) : Inv b n whole (s.act a) := by
  cases a with
  | host len info => exact h.host len info
  | call ok fresh => exact h.process ok fresh

end Inv

theorem inv_reach {s s' : A2f} (h : Inv b n whole s) (hr : Reach Step s s') : Inv b n whole s' :=
  hr.inv h (by rintro x _ ⟨a, rfl⟩ hx; exact hx.act a)

/-! ### One whole call -/

/-- The thread of the ring runs alone, with callbacks that succeed, until its call returns. -/
abbrev Alone (p : Packet) : A2f → A2f → Prop := Until (fun s => s.process true (some p)) (fun s => s.call = .idle)

/-- A whole call of `ringif_a2f_process_pkts`, made in `s` and returning in `s'`. -/
def Returns (p : Packet) (s s' : A2f) : Prop := s.call = .idle ∧ Alone p (s.process true (some p)) s'

section Statements

variable {idx : ℕ} (p : Packet)

theorem process_loop (h : Inv b n whole s) (hc : s.call = .loop idx) :
    s.process true (some p) =
      { s with call := if s.read = s.written.length then .idle else .item ((b + s.read) % n) } := by
  have hp := h.place
  rw [hc] at hp
  obtain ⟨rfl, -⟩ := hp
  simp only [process, hc, h.read_eq_write_iff]
  split <;> rfl

theorem process_item (hc : s.call = .item idx) :
    (s.process true (some p)).call = .refill idx ∧ (s.process true (some p)).written = s.written ∧
      (s.process true (some p)).read = s.read := by
  by_cases hf : (s.ring.elem idx).Filled <;> simp [process, hc, hf]

theorem process_refill (hc : s.call = .refill idx) :
    (s.process true (some p)).call = .advance idx ∧ (s.process true (some p)).written = s.written ∧
      (s.process true (some p)).read = s.read := by
  simp [process, hc]

theorem process_advance (hc : s.call = .advance idx) :
    (s.process true (some p)).call = .loop ((idx + 1) % s.ring.ringNumElem) ∧
      (s.process true (some p)).written = s.written ∧ (s.process true (some p)).read = s.read + 1 := by
  simp [process, hc]

/-- One round of the loop: it comes back to its head with the read index moved on. -/
theorem round_alone (h : Inv b n whole s) (hc : s.call = .loop idx) (hm : s.read < s.written.length) :
    ∃ t idx', (∀ s', Alone p t s' → Alone p s s') ∧ Inv b n whole t ∧ t.call = .loop idx' ∧
      t.written = s.written ∧ t.read = s.read + 1 := by
  have h1 := process_loop p h hc
  rw [if_neg hm.ne] at h1
  set s1 := s.process true (some p) with hs1
  have hc1 : s1.call = .item ((b + s.read) % n) := by rw [h1]
  obtain ⟨hc2, hw2, hr2⟩ := process_item p hc1
  set s2 := s1.process true (some p) with hs2
  obtain ⟨hc3, hw3, hr3⟩ := process_refill p hc2
  set s3 := s2.process true (some p) with hs3
  obtain ⟨hc4, hw4, hr4⟩ := process_advance p hc3
  have hi3 : Inv b n whole s3 := ((h.process _ _).process _ _).process _ _
  refine ⟨s3.process true (some p), _, fun s' hs' => ?_, hi3.process _ _, hc4, ?_, ?_⟩
  · refine .more (by simp [hc]) (.more (s := s1) ?_ (.more (s := s2) ?_ (.more (s := s3) ?_ hs')))
    · simp [h1]
    · simp [hc2]
    · simp [hc3]
  · rw [hw4, hw3, hw2, h1]
  · rw [hr4, hr3, hr2, h1]

/-- From the head of the loop the call takes every packet of the host. -/
theorem loop_alone (d : ℕ) : ∀ {s : A2f} {idx : ℕ}, Inv b n whole s → s.call = .loop idx →
    s.read + d = s.written.length →
    ∃ s', Alone p s s' ∧ Inv b n whole s' ∧ s'.written = s.written ∧ s'.read = s.written.length := by
  induction d with
  | zero =>
    intro s idx h hc hd
    have hend := process_loop p h hc
    rw [if_pos (by omega)] at hend
    refine ⟨s.process true (some p), .more (by simp [hc]) (.done ?_), h.process _ _, ?_, ?_⟩
    · rw [hend]
    · rw [hend]
    · rw [hend]
      exact hd
  | succ d ih =>
    intro s idx h hc hd
    obtain ⟨t, idx', hround, hi, hct, hwt, hrt⟩ := round_alone p h hc (by omega)
    obtain ⟨s', ha, hi', hw, hr⟩ := ih hi hct (by rw [hwt]; omega)
    exact ⟨s', hround s' ha, hi', by rw [hw, hwt], by rw [hr, hwt]⟩

/-- A call whose callbacks succeed takes every packet of the host. -/
theorem call_returns (h : Inv b n whole s) (hc : s.call = .idle) :
    ∃ s', Returns p s s' ∧ Inv b n whole s' ∧ s'.written = s.written ∧ s'.read = s.written.length := by
  by_cases he : s.ring.readIdx = s.ring.writeIdx
  · have hsame : s.process true (some p) = s := by simp [process, hc, he]
    refine ⟨s, ⟨hc, by rw [hsame]; exact .done hc⟩, h, rfl, ?_⟩
    rw [h.readIdx] at he
    exact h.read_eq_write_iff.mp he
  · have hloop : s.process true (some p) = { s with call := .loop s.ring.readIdx } := by
      simp [process, hc, he]
    obtain ⟨d, hd⟩ := Nat.exists_eq_add_of_le h.read_le
    obtain ⟨s', ha, hi, hw, hr⟩ := loop_alone p d (h.process true (some p)) (by rw [hloop])
      (by rw [hloop]; exact hd.symm)
    rw [hloop] at hw hr
    exact ⟨s', ⟨hc, ha⟩, hi, hw, hr⟩

end Statements

/-- Each packet is processed once, in order: the packets that were processed with success are the first ones of the
    host, and those before the read index are all among them, with at most one more that waits for its refill;
    and an element that the read index has passed has a buffer whenever it is the host's. A call whose
    callbacks succeed takes everything there is. -/
structure InOrder (b n : ℕ) (s : A2f) : Prop where
  readIdx : s.ring.readIdx = (b + s.read) % n
  writeIdx : s.ring.writeIdx = (b + s.written.length) % n
  prefix_written : s.processed <+: s.written
  read_le : s.read ≤ s.processed.length
  le_read : s.processed.length ≤ s.read + 1
  passed : ∀ j, s.written.length ≤ j → n ≤ j → j < s.read + n → (s.ring.elem ((b + j) % n)).Filled
  returns : s.call = .idle → ∀ p, ∃ s', Returns p s s' ∧ s'.written = s.written ∧ s'.processed = s.written

/-- And every element of the host has a buffer. -/
structure ExactlyOnce (b n : ℕ) (s : A2f) : Prop extends InOrder b n s where
  stocked : ∀ j, s.written.length ≤ j → j < s.read + n → (s.ring.elem ((b + j) % n)).Filled

theorem Inv.inOrder (h : Inv b n whole s) : s.InOrder b n := by
  have honce := h.once
  refine ⟨h.readIdx, h.write, ?_, by omega, by omega, fun j hj hn hlt => ?_, fun hc p => ?_⟩
  · rw [h.order]
    exact List.take_prefix _ _
  · rcases h.out j hj hlt with hf | ⟨-, hjn, -⟩
    · exact hf
    · omega
  · obtain ⟨s', hret, hi', hw, hr⟩ := call_returns p h hc
    have hlen : s'.processed.length = s.written.length := by
      have := hi'.once
      rw [hw] at this
      omega
    refine ⟨s', hret, hw, ?_⟩
    rw [hi'.order, hlen, hw, List.take_length]

/-- Whatever the host does and whichever callbacks fail, packets are processed once and in order. -/
theorem in_order {n w : ℕ} {f : ℕ → Option Packet} (hn : 2 ≤ n) {s : A2f} (h : Reach Step (create n w f) s) :
    s.InOrder (RingCtx.createA2fRing n w).writeIdx n :=
  (inv_reach (inv_create hn w f) h).inOrder

/-- Every element of the host has a buffer, in every run, exactly if the first filling gave one to each: nothing fills
    an element that it left empty before the host has come to it. -/
theorem a2f_exactly_once_iff {n w : ℕ} {f : ℕ → Option Packet} (hn : 2 ≤ n) :
    (∀ s, Reach Step (create n w f) s → s.ExactlyOnce (RingCtx.createA2fRing n w).writeIdx n) ↔
      ((RingCtx.createA2fRing n w).a2fRefillBufs f).1 = true := by
  constructor
  · intro h
    obtain ⟨m, hm, hto, hall⟩ := create_filledTo hn w f
    rw [hall]
    -- the first element without a buffer would be one of the host
    by_contra hne
    have hfilled := (h _ .refl).stocked m (Nat.zero_le _) (by simp [create]; omega)
    exact hfilled.not_empty (hto.above m le_rfl (by omega))
  · intro hwhole s hr
    have hi := inv_reach (inv_create hn w f) hr
    refine ⟨hi.inOrder, fun j hj hlt => ?_⟩
    rcases hi.out j hj hlt with hf | ⟨-, -, hw⟩
    · exact hf
    · exact absurd hwhole (by simp [hw])

/-- One packet whose refill fails: it is not processed again by the next call, and the other element keeps its
    buffer. -/
theorem a2f_exactly_once_of_failed_refill :
    let s := [.host 4 1, .call true none, .call true none, .call true none, .call true none].foldl act
      (create 2 0 fun _ => some ⟨⟨16, 8, 0, 16⟩, by decide⟩)
    s.processed = [⟨16, 4, 1, 16⟩] ∧ s.read = 0 ∧ (s.ring.elem 1).Filled ∧
      ∃ s', Returns ⟨⟨32, 8, 0, 32⟩, by decide⟩ s s' ∧ s'.processed = [⟨16, 4, 1, 16⟩] := by
  intro s
  have hs : s.call = .idle ∧ s.written = [⟨16, 4, 1, 16⟩] ∧ s.processed = [⟨16, 4, 1, 16⟩] ∧ s.read = 0 := by
    decide +kernel
  have hone := (a2f_exactly_once_iff (w := 0) (f := fun _ => some ⟨⟨16, 8, 0, 16⟩, by decide⟩)
    (show 2 ≤ 2 by decide)).mpr (by decide) s (.foldl act _
      [.host 4 1, .call true none, .call true none, .call true none, .call true none])
  obtain ⟨s', hret, -, hall⟩ := hone.returns hs.1 ⟨⟨32, 8, 0, 32⟩, by decide⟩
  exact ⟨hs.2.2.1, hs.2.2.2, hone.stocked 1 (by simp [hs.2.1]) (by simp [hs.2.2.2]), s', hret,
    hall.trans hs.2.1⟩

/-- A ring of two elements for which there is no buffer when it is made: both are the host's, and empty. -/
theorem a2f_not_stocked :
    ¬ ∀ s, Reach Step (create 2 0 fun _ => none) s → s.ExactlyOnce (RingCtx.createA2fRing 2 0).writeIdx 2 := by
  intro h
  exact absurd ((h _ .refl).stocked 0 (by decide) (by decide)) (by decide)

end A2f

end Qcc730.Ring
