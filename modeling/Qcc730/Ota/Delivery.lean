import Qcc730.Ota.Tftp

/-! What a TFTP download delivers.

    The task and the server stay in step: the blocks stored are `1, …, b` for some `b`, the server is at most at
    block `b + 1`, and only stored blocks are acknowledged. The bytes in the ring, in the reader's hands and
    returned are together the first `b` blocks of the file. All of it rests on four things that the code does not
    see to: that a block is stored only when there is room for it, that a call does not stop at the status or at
    an event while data is still to come, and that the number 0 of block 65536 is not acknowledged by a
    time-out. -/

namespace Qcc730.Ota.Tftp

open Qcc730.Lib

/-! ### The file -/

theorem take_block (file : Bytes) (b : ℕ) :
    file.take (tftpPayloadSize * b) ++ block file (b + 1) = file.take (tftpPayloadSize * (b + 1)) := by
  rw [block, Nat.add_sub_cancel, Nat.mul_succ, List.take_add]

theorem take_lastBlock (file : Bytes) : file.take (tftpPayloadSize * lastBlock file) = file := by
  apply List.take_of_length_le
  rw [lastBlock, tftpPayloadSize]
  omega

theorem length_block_le (file : Bytes) (i : ℕ) : (block file i).length ≤ tftpPayloadSize := List.length_take_le ..

/-! ### Packets -/

theorem length_dataPkt (file : Bytes) (i : ℕ) : (dataPkt file i).length = (block file i).length + 4 := by
  simp only [dataPkt, List.length_append, List.length_cons, List.length_nil]
  omega

/-- A DATA packet is parsed to the low 16 bits of its block. -/
theorem otaTftpPktParse_dataPkt (file : Bytes) (i seq : ℕ) (st : TftpState) :
    otaTftpPktParse (dataPkt file i) seq st = (i % 65536, if st = .rrq ∨ st = .oack then .data else st) := by
  have hlen := length_dataPkt file i
  have hop : ntohs (dataPkt file i) 0 = 3 := rfl
  have hseq : ntohs (dataPkt file i) 2 = i % 65536 := by
    show 256 * (UInt8.ofNat (i % 65536 / 256)).toNat + (UInt8.ofNat (i % 256)).toNat = i % 65536
    simp only [UInt8.toNat_ofNat']
    omega
  rw [otaTftpPktParse, if_neg (by omega), hop]
  simp only [hseq]
  rw [if_neg (by omega)]

/-- What the task does with block `i`. -/
theorem receive_dataPkt {file : Bytes} {s : Session} {i : ℕ} {connected late : Bool}
    (hst : s.tftpState = .rrq ∨ s.tftpState = .data) :
    receive s (dataPkt file i) true connected late =
      let s' := { s with retryCount := 0, pktSeq := i % 65536, tftpState := .data }
      if s.tftpState = .rrq ∧ connected = false then ⟨{ s' with status := .stop }, none, .failing .socketConnect⟩
      else if i % 65536 > s.pktSeqLast then
        ⟨{ s' with pktSeqLast := i % 65536, ring := s.ring.write tftpRcvBufSize (block file i) },
          some (.ack (i % 65536)), .signal (decide ((block file i).length < tftpPayloadSize))⟩
      else if i % 65536 = s.pktSeqLast then
        if s.status = .runningWaitingForStop then ⟨s', none, .loop⟩ else ⟨s', some (.ack (i % 65536)), .loop⟩
      else timeoutIf late s' := by
  have hle := length_block_le file i
  have hlen := length_dataPkt file i
  have hdrop : (dataPkt file i).drop tftpHeaderSize = block file i := rfl
  have hshort : decide ((block file i).length + 4 < tftpPayloadSize + tftpHeaderSize) =
      decide ((block file i).length < tftpPayloadSize) := decide_eq_decide.mpr Nat.add_lt_add_iff_right
  have hdata : (if s.tftpState = .rrq ∨ s.tftpState = .oack then TftpState.data else s.tftpState) = .data := by
    rcases hst with h | h <;> simp [h]
  have hfit : ¬ (block file i).length + 4 > tftpPayloadSize + tftpHeaderSize := by
    simp only [tftpHeaderSize]
    omega
  rw [receive, if_neg (by simp)]
  simp only [otaTftpPktParse_dataPkt, hdata, hdrop, hlen, hshort, if_neg hfit]
  simp only [reduceCtorEq, if_false, ne_eq, not_true_eq_false, Nat.mod_mod]
  split
  · rfl
  · split
    · rename_i hgt
      rw [if_neg (by omega)]
    · rfl

/-- An ERROR packet ends the task. -/
theorem receive_refusal (s : Session) (rest : Bytes) (connected late : Bool) :
    ∃ st sent e, receive s ([0, 5] ++ rest) true connected late =
        ⟨{ s with retryCount := 0, tftpState := st, status := .stop }, sent, .failing e⟩ ∧
      ∀ n, sent ≠ some (.ack n) := by
  rw [receive, if_neg (by simp)]
  simp only []
  split
  · exact ⟨s.tftpState, _, _, rfl, by simp⟩
  · have hparse : otaTftpPktParse ([0, 5] ++ rest) s.pktSeq s.tftpState = (s.pktSeq, .error) := by
      have hop : ntohs ([0, 5] ++ rest) 0 = 5 := rfl
      rw [otaTftpPktParse, hop, if_neg (by simp only [List.length_append, List.length_cons]; omega)]
      rfl
    simp only [hparse, if_true]
    exact ⟨.error, none, _, rfl, by simp⟩

/-- A pass that stores nothing: what stays as it was, and what it sends. -/
structure Outcome.Idle (s : Session) (o : Outcome) : Prop where
  ring : o.sess.ring = s.ring
  pktSeqLast : o.sess.pktSeqLast = s.pktSeqLast
  next : o.next = .loop ∨ o.next = .exit ∨ ∃ e, o.next = .failing e

/-- The time-out. -/
theorem otaTftpTimeout_idle (s : Session) :
    (otaTftpTimeout s).Idle s ∧ (otaTftpTimeout s).sess.pktSeq = s.pktSeq ∧
      (otaTftpTimeout s).sess.tftpState = s.tftpState ∧
      ((otaTftpTimeout s).sess.status = .stop ∨ (otaTftpTimeout s).sess.status = s.status) ∧
      ∀ n, (otaTftpTimeout s).sent = some (.ack n) →
        n = s.pktSeq % 65536 ∧ s.status = .running ∧ s.tftpState = .data ∧ s.retryCount < tftpMaxRetryCount := by
  rw [otaTftpTimeout]
  split
  · exact ⟨⟨rfl, rfl, .inl rfl⟩, rfl, rfl, .inr rfl, by simp⟩
  · rename_i hrun
    have hrun : s.status = .running := by simpa using hrun
    cases hst : s.tftpState with
    | rrq =>
      simp only []
      split
      · exact ⟨⟨rfl, rfl, .inl rfl⟩, rfl, rfl, .inr rfl, by simp⟩
      · exact ⟨⟨rfl, rfl, .inr (.inr ⟨_, rfl⟩)⟩, rfl, rfl, .inl rfl, by simp⟩
    | data =>
      simp only []
      split
      · rename_i hretry
        exact ⟨⟨rfl, rfl, .inl rfl⟩, rfl, rfl, .inr rfl, by simp +contextual [hrun, hretry, eq_comm]⟩
      · exact ⟨⟨rfl, rfl, .inr (.inr ⟨_, rfl⟩)⟩, rfl, rfl, .inl rfl, by simp⟩
    | error => exact ⟨⟨rfl, rfl, .inl rfl⟩, rfl, hst, .inr rfl, by simp⟩
    | oack => exact ⟨⟨rfl, rfl, .inl rfl⟩, rfl, hst, .inr rfl, by simp⟩

/-- The task is inside its loop. -/
def Pc.Inside : Pc → Prop
  | .waitBuf => True
  | .select => True
  | .signal _ => True
  | .finishing => True
  | _ => False

/-- The bytes the reader has taken and not yet returned. -/
def Reader.inHand : Reader → Bytes
  | .copied out _ => out
  | _ => []

namespace Machine

variable {file : Bytes} {m : Machine}

/-! ### What the code does not see to -/

/-- The last block of the file is stored. -/
def Complete (file : Bytes) (m : Machine) : Prop := lastBlock file ∈ m.stored

instance : Decidable (m.Complete file) := inferInstanceAs (Decidable (_ ∈ _))

/-- A call that stands at `r` does not stop while data is still to come: it finds the status no longer `RUNNING` only
    when the file is complete and the ring empty, it is woken by `DATA_READY` only when there is data or the file is
    complete, and without it only when the file is complete. -/
def Patient (file : Bytes) (m : Machine) : Reader → Prop
  | .checked _ => m.sess.status ≠ .running → m.Complete file ∧ m.sess.receiveData = 0
  | .waiting _ =>
    m.woken → (m.sig.dataReady = true → 0 < m.sess.receiveData ∨ m.Complete file) ∧
      (m.sig.dataReady = false → m.Complete file)
  | _ => True

instance : (r : Reader) → Decidable (Patient file m r)
  | .checked _ => inferInstanceAs (Decidable (_ → _))
  | .waiting _ => inferInstanceAs (Decidable (_ → _))
  | .init => inferInstanceAs (Decidable True)
  | .closed => inferInstanceAs (Decidable True)
  | .idle => inferInstanceAs (Decidable True)
  | .copying _ => inferInstanceAs (Decidable True)
  | .copied _ _ => inferInstanceAs (Decidable True)

/-- A step that keeps to what the download needs: a new block finds room in the ring, the number 0, which is that of
    block 65536, is not acknowledged by a time-out, and a call does not stop early. -/
def Orderly (file : Bytes) (m : Machine) : Act → Prop
  | .data i _ late =>
    m.pc = .select →
      (m.sess.pktSeqLast < i % 65536 → m.sess.receiveData + (block file i).length ≤ tftpRcvBufSize) ∧
      (late = true → m.sess.status = .running → i % 65536 ≠ 0)
  | .quiet late =>
    m.pc = .select → late = true → m.sess.status = .running → m.sess.tftpState = .data →
      m.sess.retryCount < tftpMaxRetryCount → m.sess.pktSeq ≠ 0
  | .reader => Patient file m m.reader
  | _ => True

instance : (a : Act) → Decidable (Orderly file m a)
  | .data .. => inferInstanceAs (Decidable (_ → _ ∧ _))
  | .quiet _ => inferInstanceAs (Decidable (_ → _))
  | .reader => inferInstanceAs (Decidable (Patient file m m.reader))
  | .task => inferInstanceAs (Decidable True)
  | .call _ => inferInstanceAs (Decidable True)
  | .selectFailed => inferInstanceAs (Decidable True)
  | .recvFailed => inferInstanceAs (Decidable True)
  | .recvEmpty => inferInstanceAs (Decidable True)
  | .refusal .. => inferInstanceAs (Decidable True)
  | .stranger .. => inferInstanceAs (Decidable True)
  | .request => inferInstanceAs (Decidable True)
  | .ack _ => inferInstanceAs (Decidable True)

/-! ### The task and the server -/

/-- The blocks `1, …, b` are stored and the server is at most at block `b + 1`; what was acknowledged is stored.
    Block 65536, whose number is 0, may have been parsed and is then the only one parsed and not stored. -/
structure Stepped (file : Bytes) (m : Machine) : Prop where
  stored : m.stored = List.range' 1 m.stored.length
  last : m.sess.pktSeqLast = m.stored.length
  small : m.stored.length ≤ 65535
  current : m.current ≤ m.stored.length + 1
  current_le : m.current ≤ lastBlock file
  stored_le : m.stored.length ≤ lastBlock file
  seq : m.sess.pktSeq = m.parsed % 65536
  parsed : m.sess.status = .stop ∨ m.parsed ≤ m.stored.length ∨ m.parsed = 65536
  state : m.sess.status = .stop ∨ m.sess.tftpState = .rrq ∨ m.sess.tftpState = .data
  started : m.sess.status = .stop ∨ (m.sess.tftpState = .data → 1 ≤ m.parsed)
  live : m.pc.Inside → m.sess.status ≠ .stop
  acks : ∀ x ∈ m.acks, x.number = x.block ∧ 1 ≤ x.block ∧ x.block ≤ x.stored.length ∧
    x.stored = List.range' 1 x.stored.length ∧ x.stored.length ≤ m.stored.length

/-- Only the task and the server change what it is about. -/
theorem Stepped.congr {m' : Machine} (h : m.Stepped file) (hstored : m'.stored = m.stored)
    (hacks : m'.acks = m.acks) (hcurrent : m'.current = m.current) (hparsed : m'.parsed = m.parsed)
    (hlast : m'.sess.pktSeqLast = m.sess.pktSeqLast) (hseq : m'.sess.pktSeq = m.sess.pktSeq)
    (hstate : m'.sess.tftpState = m.sess.tftpState)
    (hstatus : m'.sess.status = m.sess.status ∨ m'.sess.status ≠ .stop ∧ m.sess.status ≠ .stop)
    (hlive : m'.pc.Inside → m'.sess.status ≠ .stop) : m'.Stepped file := by
  have hstop : m.sess.status = .stop → m'.sess.status = .stop := by
    rcases hstatus with hs | ⟨_, hs⟩
    · exact hs.trans
    · exact fun h => absurd h hs
  constructor
  · rw [hstored]
    exact h.stored
  · rw [hlast, hstored]
    exact h.last
  · rw [hstored]
    exact h.small
  · rw [hcurrent, hstored]
    exact h.current
  · rw [hcurrent]
    exact h.current_le
  · rw [hstored]
    exact h.stored_le
  · rw [hseq, hparsed]
    exact h.seq
  · rw [hparsed, hstored]
    exact h.parsed.imp_left hstop
  · rw [hstate]
    exact h.state.imp_left hstop
  · rw [hstate, hparsed]
    exact h.started.imp_left hstop
  · exact hlive
  · rw [hacks, hstored]
    exact h.acks

theorem Stepped.mem_iff (h : m.Stepped file) {j : ℕ} : j ∈ m.stored ↔ 1 ≤ j ∧ j ≤ m.stored.length := by
  rw [h.stored, List.mem_range'_1, List.length_range']
  omega

theorem Stepped.complete_iff (h : m.Stepped file) : m.Complete file ↔ m.stored.length = lastBlock file := by
  have hle := h.stored_le
  have hpos : 1 ≤ lastBlock file := Nat.le_add_left ..
  rw [Complete, h.mem_iff]
  omega

/-- A pass that stores nothing keeps the two in step, if what it acknowledges is stored. -/
theorem Stepped.idle {p : ℕ} {o : Outcome} (h : m.Stepped file) (ho : o.Idle m.sess)
    (hseq : o.sess.pktSeq = p % 65536)
    (hparsed : o.sess.status = .stop ∨ p ≤ m.stored.length ∨ p = 65536)
    (hstate : o.sess.status = .stop ∨ o.sess.tftpState = .rrq ∨ o.sess.tftpState = .data)
    (hstarted : o.sess.status = .stop ∨ (o.sess.tftpState = .data → 1 ≤ p))
    (hack : ∀ n, o.sent = some (.ack n) → n = p ∧ 1 ≤ p ∧ p ≤ m.stored.length) :
    (m.afterPass p o).Stepped file := by
  have hstored : (m.afterPass p o).stored = m.stored := by
    rcases ho.next with hn | hn | ⟨e, hn⟩ <;> simp [afterPass, hn]
  constructor
  · rw [hstored]
    exact h.stored
  · rw [hstored, ← h.last]
    exact ho.pktSeqLast
  · rw [hstored]
    exact h.small
  · rw [hstored]
    exact h.current
  · exact h.current_le
  · rw [hstored]
    exact h.stored_le
  · exact hseq
  · rw [hstored]
    exact hparsed
  · exact hstate
  · exact hstarted
  · intro hp
    rcases ho.next with hn | hn | ⟨e, hn⟩ <;> simp [afterPass, hn, Pc.Inside] at hp
  · rw [hstored]
    have hacks : (m.afterPass p o).acks = m.acks ∨
        ∃ n, o.sent = some (.ack n) ∧ (m.afterPass p o).acks = m.acks ++ [⟨n, p, m.stored⟩] := by
      rw [← hstored]
      cases hsent : o.sent with
      | none => exact .inl (by simp only [afterPass, hsent])
      | some packet =>
        cases packet with
        | ack n => exact .inr ⟨n, rfl, by simp only [afterPass, hsent]⟩
        | rrq | error => exact .inl (by simp only [afterPass, hsent])
    obtain hacks | ⟨n, hsent, hacks⟩ := hacks
    · rw [hacks]
      exact h.acks
    · rw [hacks]
      intro x hx
      rcases List.mem_append.mp hx with hx | hx
      · exact h.acks x hx
      · obtain rfl := List.mem_singleton.mp hx
        obtain ⟨rfl, hpos, hle⟩ := hack n hsent
        exact ⟨rfl, hpos, hle, h.stored, le_rfl⟩

/-- A new block is the next one. -/
theorem Stepped.next {i : ℕ} (h : m.Stepped file) (hi : i ≤ m.current) (hnew : m.sess.pktSeqLast < i % 65536) :
    i = m.stored.length + 1 ∧ i ≤ 65535 := by
  have hcur := h.current
  have hsmall := h.small
  rw [h.last] at hnew
  omega

/-- The next block stored keeps the two in step. -/
theorem Stepped.store {o : Outcome} {short : Bool} {i : ℕ} (h : m.Stepped file) (hi : i ≤ m.current)
    (hnew : m.sess.pktSeqLast < i % 65536) (hseq : o.sess.pktSeq = i % 65536)
    (hlast : o.sess.pktSeqLast = i % 65536) (hst : o.sess.tftpState = .data)
    (hstatus : o.sess.status ≠ .stop) (hsent : o.sent = some (.ack (i % 65536))) (hnext : o.next = .signal short) :
    (m.afterPass i o).Stepped file := by
  obtain ⟨rfl, hlt⟩ := h.next hi hnew
  have hcur := h.current
  have hle := h.current_le
  have hstored : (m.afterPass (m.stored.length + 1) o).stored = m.stored ++ [m.stored.length + 1] := by
    simp [afterPass, hnext]
  have hlen : (m.afterPass (m.stored.length + 1) o).stored.length = m.stored.length + 1 := by
    rw [hstored, List.length_append, List.length_singleton]
  have hrange : m.stored ++ [m.stored.length + 1] = List.range' 1 (m.stored.length + 1) := by
    rw [List.range'_concat, Nat.one_mul, Nat.add_comm 1, ← h.stored]
  have hmod : (m.stored.length + 1) % 65536 = m.stored.length + 1 := Nat.mod_eq_of_lt (by omega)
  constructor
  · rw [hlen, hstored, hrange]
  · rw [hlen, ← hmod]
    exact hlast
  · rw [hlen]
    exact hlt
  · rw [hlen]
    exact Nat.le_succ_of_le hcur
  · exact hle
  · rw [hlen]
    exact hi.trans hle
  · exact hseq
  · rw [hlen]
    exact .inr (.inl le_rfl)
  · exact .inr (.inr hst)
  · exact .inr fun _ => Nat.le_add_left ..
  · exact fun _ => hstatus
  · rw [hlen]
    have hacks : (m.afterPass (m.stored.length + 1) o).acks =
        m.acks ++ [⟨(m.stored.length + 1) % 65536, m.stored.length + 1, m.stored ++ [m.stored.length + 1]⟩] := by
      simp [afterPass, hnext, hsent]
    rw [hacks]
    intro x hx
    rcases List.mem_append.mp hx with hx | hx
    · obtain ⟨hnum, hpos, hxle, hxr, hxm⟩ := h.acks x hx
      exact ⟨hnum, hpos, hxle, hxr, Nat.le_succ_of_le hxm⟩
    · obtain rfl := List.mem_singleton.mp hx
      refine ⟨hmod, Nat.le_add_left .., ?_, ?_, ?_⟩
      · rw [List.length_append, List.length_singleton]
      · rw [List.length_append, List.length_singleton]
        exact hrange
      · rw [List.length_append, List.length_singleton]

/-- A time-out keeps the two in step, if it does not acknowledge the number 0. -/
theorem Stepped.timeout {s : Session} {p : ℕ} (h : m.Stepped file) (hring : s.ring = m.sess.ring)
    (hlast : s.pktSeqLast = m.sess.pktSeqLast) (hseq : s.pktSeq = p % 65536)
    (hparsed : s.status = .stop ∨ p ≤ m.stored.length ∨ p = 65536)
    (hstate : s.status = .stop ∨ s.tftpState = .rrq ∨ s.tftpState = .data)
    (hstarted : s.status = .stop ∨ (s.tftpState = .data → 1 ≤ p))
    (hzero : s.status = .running → s.tftpState = .data → s.retryCount < tftpMaxRetryCount → s.pktSeq ≠ 0) :
    (m.afterPass p (otaTftpTimeout s)).Stepped file ∧ (otaTftpTimeout s).Idle m.sess := by
  obtain ⟨⟨hr, hl, hn⟩, hseq', hst', hstatus, hack⟩ := otaTftpTimeout_idle s
  have hidle : (otaTftpTimeout s).Idle m.sess := ⟨hr.trans hring, hl.trans hlast, hn⟩
  have hstop : s.status = .stop → (otaTftpTimeout s).sess.status = .stop := fun hs => by
    rcases hstatus with h | h
    · exact h
    · exact h.trans hs
  refine ⟨h.idle hidle (hseq'.trans hseq) (hparsed.imp_left hstop) ?_ ?_ ?_, hidle⟩
  · rw [hst']
    exact hstate.imp_left hstop
  · rw [hst']
    exact hstarted.imp_left hstop
  · intro n hn
    obtain ⟨rfl, hrun, hdata, hretry⟩ := hack n hn
    have hne := hzero hrun hdata hretry
    have hsmall := h.small
    have hnstop : s.status ≠ .stop := by simp [hrun]
    have hp := hparsed.resolve_left hnstop
    have hpos := hstarted.resolve_left hnstop hdata
    omega

/-- The same for a pass that may be too early for the time-out. -/
theorem Stepped.timeoutIf {s : Session} {p : ℕ} (h : m.Stepped file) (late : Bool)
    (hring : s.ring = m.sess.ring) (hlast : s.pktSeqLast = m.sess.pktSeqLast) (hseq : s.pktSeq = p % 65536)
    (hparsed : s.status = .stop ∨ p ≤ m.stored.length ∨ p = 65536)
    (hstate : s.status = .stop ∨ s.tftpState = .rrq ∨ s.tftpState = .data)
    (hstarted : s.status = .stop ∨ (s.tftpState = .data → 1 ≤ p))
    (hzero : late = true → s.status = .running → s.tftpState = .data → s.retryCount < tftpMaxRetryCount →
      s.pktSeq ≠ 0) :
    (m.afterPass p (Tftp.timeoutIf late s)).Stepped file ∧ (Tftp.timeoutIf late s).Idle m.sess := by
  cases late with
  | true => exact h.timeout hring hlast hseq hparsed hstate hstarted (hzero rfl)
  | false =>
    have hidle : (Tftp.timeoutIf false s).Idle m.sess := ⟨hring, hlast, .inl rfl⟩
    exact ⟨h.idle hidle hseq hparsed hstate hstarted (by simp [Tftp.timeoutIf]), hidle⟩

/-- A pass that stores the next block, with room for it. -/
structure Stores (file : Bytes) (m : Machine) (p : ℕ) (o : Outcome) : Prop where
  next : p = m.stored.length + 1
  ring : o.sess.ring = m.sess.ring.write tftpRcvBufSize (block file p)
  room : m.sess.ring.used + (block file p).length ≤ tftpRcvBufSize
  signal : ∃ short, o.next = .signal short

/-- Block `i` arrives. -/
theorem Stepped.data {i : ℕ} {connected late : Bool} (h : m.Stepped file) (hpc : m.pc = .select)
    (hi : 1 ≤ i) (hi' : i ≤ m.current) (hok : Orderly file m (.data i connected late)) :
    (m.afterPass i (receive m.sess (dataPkt file i) true connected late)).Stepped file ∧
      ((receive m.sess (dataPkt file i) true connected late).Idle m.sess ∨
        m.Stores file i (receive m.sess (dataPkt file i) true connected late)) := by
  obtain ⟨hroom, hzero⟩ := hok hpc
  have hcur := h.current
  have hsmall := h.small
  have hlast := h.last
  have hseen : i ≤ m.stored.length ∨ i = 65536 ∨ m.sess.pktSeqLast < i % 65536 := by omega
  have hlive : m.sess.status ≠ .stop := h.live (by rw [hpc]; trivial)
  rw [receive_dataPkt (h.state.resolve_left hlive)]
  simp only []
  split
  · -- the socket cannot be connected
    have hidle := fun (s : Session) (h₁ : s.ring = m.sess.ring) (h₂ : s.pktSeqLast = m.sess.pktSeqLast) =>
      (⟨h₁, h₂, .inr (.inr ⟨.socketConnect, rfl⟩)⟩ : Outcome.Idle m.sess ⟨s, none, .failing .socketConnect⟩)
    exact ⟨h.idle (hidle _ rfl rfl) rfl (.inl rfl) (.inl rfl) (.inl rfl) (by simp), .inl (hidle _ rfl rfl)⟩
  · split
    · rename_i hnew
      have hroom := hroom hnew
      exact ⟨h.store hi' hnew rfl rfl rfl hlive rfl rfl, .inr ⟨(h.next hi' hnew).1, rfl, hroom, _, rfl⟩⟩
    · rename_i hold
      have hseen' : i ≤ m.stored.length ∨ i = 65536 := by omega
      split
      · -- the last block stored comes once more
        rename_i heq
        have hlast' : i = m.stored.length := by omega
        have hidle := fun (s : Session) (sent : Option Packet) (h₁ : s.ring = m.sess.ring)
            (h₂ : s.pktSeqLast = m.sess.pktSeqLast) => (⟨h₁, h₂, .inl rfl⟩ : Outcome.Idle m.sess ⟨s, sent, .loop⟩)
        split
        · exact ⟨h.idle (hidle _ _ rfl rfl) rfl (.inr hseen') (.inr (.inr rfl)) (.inr fun _ => hi) (by simp),
            .inl (hidle _ _ rfl rfl)⟩
        · refine ⟨h.idle (hidle _ _ rfl rfl) rfl (.inr hseen') (.inr (.inr rfl)) (.inr fun _ => hi) ?_,
            .inl (hidle _ _ rfl rfl)⟩
          intro n hn
          injection hn with hn
          injection hn with hn
          omega
      · have htime := h.timeoutIf (s := { m.sess with retryCount := 0, pktSeq := i % 65536, tftpState := .data })
          (p := i) late rfl rfl rfl (.inr hseen') (.inr (.inr rfl)) (.inr fun _ => hi)
          (fun hlate hrun _ _ => hzero hlate hrun)
        exact ⟨htime.1, .inl htime.2⟩

/-- A pass of the task keeps the two in step; it stores the next block or nothing. -/
theorem Stepped.pass {a : Act} {p : ℕ} {o : Outcome} (h : m.Stepped file) (hpc : m.pc = .select)
    (hok : Orderly file m a) (ho : m.pass file a = some (p, o)) :
    (m.afterPass p o).Stepped file ∧ (o.Idle m.sess ∨ m.Stores file p o) := by
  have hparsed := h.parsed
  -- a pass that ends the task
  have hstop : ∀ (s : Session) (sent : Option Packet) (next : Pc), s.ring = m.sess.ring →
      s.pktSeqLast = m.sess.pktSeqLast → s.pktSeq = m.sess.pktSeq → s.status = .stop →
      (next = .loop ∨ next = .exit ∨ ∃ e, next = .failing e) → (∀ n, sent ≠ some (.ack n)) →
      (m.afterPass m.parsed ⟨s, sent, next⟩).Stepped file ∧
        (Outcome.Idle m.sess ⟨s, sent, next⟩ ∨ m.Stores file m.parsed ⟨s, sent, next⟩) := by
    intro s sent next hring hlast hseq hst hnext hsent
    have hidle : Outcome.Idle m.sess ⟨s, sent, next⟩ := ⟨hring, hlast, hnext⟩
    exact ⟨h.idle hidle (hseq.trans h.seq) (.inl hst) (.inl hst) (.inl hst) (fun n hn => absurd hn (hsent n)),
      .inl hidle⟩
  cases a with
  | selectFailed =>
    obtain ⟨rfl, rfl⟩ : m.parsed = p ∧ _ = o := by simpa [Machine.pass] using ho
    exact hstop _ _ _ rfl rfl rfl rfl (.inr (.inr ⟨_, rfl⟩)) (by simp)
  | recvFailed =>
    obtain ⟨rfl, rfl⟩ : m.parsed = p ∧ _ = o := by simpa [Machine.pass] using ho
    exact hstop _ _ _ rfl rfl rfl rfl (.inr (.inr ⟨_, rfl⟩)) (by simp)
  | recvEmpty =>
    obtain ⟨rfl, rfl⟩ : m.parsed = p ∧ _ = o := by simpa [Machine.pass] using ho
    exact hstop _ _ _ rfl rfl rfl rfl (.inr (.inl rfl)) (by simp)
  | quiet late =>
    obtain ⟨rfl, rfl⟩ : m.parsed = p ∧ _ = o := by simpa [Machine.pass] using ho
    cases late with
    | false =>
      have hidle : (Tftp.quiet m.sess false).Idle m.sess := ⟨rfl, rfl, .inl rfl⟩
      exact ⟨h.idle hidle h.seq hparsed h.state h.started (by simp [Tftp.quiet]), .inl hidle⟩
    | true =>
      rw [Tftp.quiet, if_pos rfl]
      split
      · exact hstop _ _ _ rfl rfl rfl rfl (.inl rfl) (by simp)
      · have htime := h.timeout (s := m.sess) rfl rfl h.seq hparsed h.state h.started (hok hpc rfl)
        exact ⟨htime.1, .inl htime.2⟩
  | data i connected late =>
    rw [Machine.pass] at ho
    split at ho
    · rename_i hi
      obtain ⟨rfl, rfl⟩ : i = p ∧ _ = o := by simpa using ho
      exact h.data hpc hi.1 hi.2 hok
    · simp at ho
  | refusal rest connected late =>
    obtain ⟨rfl, rfl⟩ : m.parsed = p ∧ _ = o := by simpa [Machine.pass] using ho
    obtain ⟨st, sent, e, he, hsent⟩ := receive_refusal m.sess rest connected late
    have he : receive m.sess (0 :: 5 :: rest) true connected late = _ := he
    rw [he]
    exact hstop _ _ _ rfl rfl rfl rfl (.inr (.inr ⟨_, rfl⟩)) hsent
  | stranger pkt late =>
    rw [Machine.pass] at ho
    split at ho
    · rename_i hrrq
      obtain ⟨rfl, rfl⟩ : m.parsed = p ∧ _ = o := by simpa using ho
      rw [receive, if_pos ⟨hrrq, rfl⟩]
      have htime := h.timeoutIf (s := m.sess) late rfl rfl h.seq hparsed h.state h.started
        (by simp [hrrq])
      exact ⟨htime.1, .inl htime.2⟩
    · simp at ho
  | task => simp [Machine.pass] at ho
  | reader => simp [Machine.pass] at ho
  | call n => simp [Machine.pass] at ho
  | request => simp [Machine.pass] at ho
  | ack n => simp [Machine.pass] at ho

/-- The server goes on only from a block that is stored. -/
theorem Stepped.served {x : Ack} (h : m.Stepped file) (hx : x ∈ m.acks) (hnum : x.number = m.current % 65536) :
    m.current ≤ m.stored.length := by
  have hcur := h.current
  have hsmall := h.small
  obtain ⟨hblock, hpos, hle, _, hlen⟩ := h.acks x hx
  omega

/-! ### The bytes -/

/-- The bytes returned, in the reader's hands and in the ring are the blocks stored. Data in the ring is announced
    or about to be; an event other than `DATA_READY` comes only from a task that has ended. -/
structure Flow (file : Bytes) (m : Machine) : Prop where
  formed : m.sess.ring.Formed tftpRcvBufSize
  room : m.sess.ring.used ≤ tftpRcvBufSize
  content : m.returned ++ m.reader.inHand ++ m.sess.ring.content tftpRcvBufSize =
    file.take (tftpPayloadSize * m.stored.length)
  announced : 0 < m.sess.ring.used → m.sig.dataReady = true ∨ (∃ short, m.pc = .signal short) ∨
    (∃ n, m.reader = .copying n) ∨ ∃ out, m.reader = .copied out true
  ended : m.sig.error = true ∨ m.sig.finish = true → m.pc = .done
  copying : ∀ n, m.reader = .copying n → 0 < m.sess.ring.used ∨ m.Complete file
  taken : ∀ more, m.reader = .copied [] more → m.returned = file
  asked : ∀ n, m.reader = .checked n ∨ m.reader = .waiting n ∨ m.reader = .copying n → 0 < n
  zeros : ∀ z ∈ m.zeros, z = file

/-- Once the file is complete and the ring and the reader's hands are empty, the whole file has been returned. -/
theorem Flow.whole (h : m.Flow file) (hs : m.Stepped file) (hc : m.Complete file) (hempty : m.sess.ring.used = 0)
    (hhand : m.reader.inHand = []) : m.returned = file := by
  have hcontent := h.content
  have hnil : m.sess.ring.content tftpRcvBufSize = [] :=
    List.length_eq_zero_iff.mp ((Circular.length_content _).trans hempty)
  rw [hnil, hhand, List.append_nil, List.append_nil, hs.complete_iff.mp hc, take_lastBlock] at hcontent
  exact hcontent

/-- A pass of the task. -/
theorem Flow.pass {p : ℕ} {o : Outcome} (h : m.Flow file) (hpc : m.pc = .select)
    (ho : o.Idle m.sess ∨ m.Stores file p o) : (m.afterPass p o).Flow file := by
  have hnend : ¬ (m.sig.error = true ∨ m.sig.finish = true) := fun he => by
    have hdone := h.ended he
    simp [hpc] at hdone
  rcases ho with ho | ho
  · have hring : (m.afterPass p o).sess.ring = m.sess.ring := ho.ring
    have hstored : (m.afterPass p o).stored = m.stored := by
      rcases ho.next with hn | hn | ⟨e, hn⟩ <;> simp [afterPass, hn]
    constructor
    · rw [hring]
      exact h.formed
    · rw [hring]
      exact h.room
    · rw [hring, hstored]
      exact h.content
    · rw [hring]
      intro hpos
      refine (h.announced hpos).imp_right ?_
      rintro (⟨short, hp⟩ | hr)
      · simp [hpc] at hp
      · exact .inr hr
    · exact fun he => absurd he hnend
    · rw [hring, Complete, hstored]
      exact h.copying
    · exact h.taken
    · exact h.asked
    · exact h.zeros
  · obtain ⟨rfl, hring, hroom, short, hnext⟩ := ho
    have hring : (m.afterPass (m.stored.length + 1) o).sess.ring = _ := hring
    have hstored : (m.afterPass (m.stored.length + 1) o).stored = m.stored ++ [m.stored.length + 1] := by
      simp [afterPass, hnext]
    have hused := Circular.write_used (d := block file (m.stored.length + 1)) h.formed
    constructor
    · rw [hring]
      exact h.formed.write
    · rw [hring, hused]
      exact hroom
    · rw [hring, Circular.content_write h.formed hroom, ← List.append_assoc, hstored, List.length_append,
        List.length_singleton, ← take_block]
      show m.returned ++ m.reader.inHand ++ _ ++ _ = _
      rw [h.content]
    · intro _
      exact .inr (.inl ⟨short, hnext⟩)
    · exact fun he => absurd he hnend
    · rw [hring, hused, Complete, hstored]
      intro n hn
      refine (h.copying n hn).imp (fun hpos => by omega) ?_
      exact fun hc => List.mem_append_left _ hc
    · exact h.taken
    · exact h.asked
    · exact h.zeros

/-- Steps of the task away from `select`. -/
theorem Flow.task (h : m.Flow file) : m.taskStep.Flow file := by
  have hended := h.ended
  have hann := h.announced
  rw [taskStep]
  cases hpc : m.pc with
  | loop =>
    simp only [hpc, reduceCtorEq, exists_false, false_or] at hended hann
    have hmove : ∀ pc, ({ m with pc := pc } : Machine).Flow file := fun pc =>
      ⟨h.formed, h.room, h.content, fun hpos => (hann hpos).imp_right .inr, fun he => absurd he hended, h.copying,
        h.taken, h.asked, h.zeros⟩
    simp only []
    split
    · split
      · exact hmove _
      · exact hmove _
    · exact hmove _
  | waitBuf =>
    simp only [hpc, reduceCtorEq, exists_false, false_or] at hended hann
    simp only []
    split
    · exact ⟨h.formed, h.room, h.content, fun hpos => (hann hpos).imp_right .inr, fun he => absurd he hended,
        h.copying, h.taken, h.asked, h.zeros⟩
    · exact h
  | select => exact h
  | signal short =>
    simp only [hpc, reduceCtorEq] at hended
    exact ⟨h.formed, h.room, h.content, fun _ => .inl rfl, fun he => absurd he hended, h.copying, h.taken, h.asked, h.zeros⟩
  | finishing =>
    simp only [hpc, reduceCtorEq, exists_false, false_or] at hended hann
    exact ⟨h.formed, h.room, h.content, fun hpos => (hann hpos).imp_right .inr, fun he => absurd he hended,
      h.copying, h.taken, h.asked, h.zeros⟩
  | failing e =>
    simp only [hpc, reduceCtorEq, exists_false, false_or] at hended hann
    exact ⟨h.formed, h.room, h.content, fun hpos => (hann hpos).imp_right .inr, fun he => absurd he hended,
      h.copying, h.taken, h.asked, h.zeros⟩
  | exit =>
    simp only [hpc, reduceCtorEq, exists_false, false_or] at hann
    simp only []
    split
    · exact ⟨h.formed, h.room, h.content, fun hpos => (hann hpos).imp_right .inr, fun _ => rfl, h.copying, h.taken,
        h.asked, h.zeros⟩
    · exact ⟨h.formed, h.room, h.content, fun hpos => (hann hpos).imp_right .inr, fun _ => rfl, h.copying, h.taken,
        h.asked, h.zeros⟩
  | done => exact h

/-- A return of `QAPI_OK` with the bytes in hand. -/
theorem Flow.giveBack {out : Bytes} (h : m.Flow file) (hhand : m.reader.inHand = out)
    (hann : 0 < m.sess.ring.used → m.sig.dataReady = true ∨ ∃ short, m.pc = .signal short)
    (hzero : out = [] → m.returned = file) : (m.giveBack out).Flow file where
  formed := h.formed
  room := h.room
  content := by
    show m.returned ++ out ++ [] ++ _ = _
    rw [List.append_nil, ← hhand]
    exact h.content
  announced := fun hpos => (hann hpos).imp_right .inl
  ended := h.ended
  copying := fun _ hr => by simp [Machine.giveBack] at hr
  taken := fun _ hr => by simp [Machine.giveBack] at hr
  asked := fun _ hr => by simp [Machine.giveBack] at hr
  zeros := by
    intro z hz
    simp only [Machine.giveBack] at hz
    split at hz
    · rename_i hout
      rcases List.mem_append.mp hz with hz | hz
      · exact h.zeros z hz
      · rw [List.mem_singleton.mp hz]
        exact hzero hout
    · exact h.zeros z hz

/-- A step of the reader. -/
theorem Flow.reader (h : m.Flow file) (hs : m.Stepped file) (hok : Patient file m m.reader) :
    m.readerStep.Flow file := by
  have hcontent := h.content
  have hann := h.announced
  rw [readerStep]
  cases hr : m.reader with
  | init =>
    simp only [hr, reduceCtorEq, exists_false, or_false] at hann
    rw [hr] at hcontent
    simp only []
    split
    · cases m.sig.error with
      | true =>
        exact ⟨h.formed, h.room, hcontent, fun hpos => (hann hpos).imp_right .inl, h.ended, by simp, by simp, by simp,
          h.zeros⟩
      | false =>
        exact ⟨h.formed, h.room, hcontent, fun hpos => (hann hpos).imp_right .inl, h.ended, by simp, by simp, by simp,
          h.zeros⟩
    · exact h
  | checked n =>
    rw [hr] at hcontent hok
    have hhand : m.reader.inHand = [] := by rw [hr]; rfl
    simp only [hr, reduceCtorEq, exists_false, or_false] at hann
    simp only []
    split
    · exact ⟨h.formed, h.room, hcontent, fun hpos => (hann hpos).imp_right .inl, h.ended, by simp, by simp,
        by simpa using h.asked n (.inl hr), h.zeros⟩
    · rename_i hrun
      obtain ⟨hc, hempty⟩ := hok hrun
      exact h.giveBack hhand hann fun _ => h.whole hs hc hempty hhand
  | waiting n =>
    rw [hr] at hcontent hok
    have hhand : m.reader.inHand = [] := by rw [hr]; rfl
    simp only [hr, reduceCtorEq, exists_false, or_false] at hann
    simp only []
    split
    · rename_i hw
      obtain ⟨hdata, hother⟩ := hok hw
      split
      · rename_i hd
        refine ⟨h.formed, h.room, hcontent, fun _ => .inr (.inr (.inl ⟨n, rfl⟩)), by simp, fun _ _ => hdata hd,
          by simp, ?_, h.zeros⟩
        simpa using h.asked n (.inr (.inl hr))
      · rename_i hd
        have hd : m.sig.dataReady = false := by simpa using hd
        have hdone : m.pc = .done := h.ended (hw.resolve_left (by simp [hd]))
        have hempty : m.sess.ring.used = 0 := by
          by_contra hne
          simpa [hd, hdone] using hann (Nat.pos_of_ne_zero hne)
        refine Flow.giveBack ?_ rfl (fun hpos => absurd hempty hpos.ne') fun _ => h.whole hs (hother hd) hempty hhand
        exact ⟨h.formed, h.room, hcontent, fun hpos => absurd hempty hpos.ne', by simp, by simp, by simp,
          by simpa using h.asked n (.inr (.inl hr)), h.zeros⟩
    · exact h
  | copying n =>
    have hn := h.asked n (.inr (.inr hr))
    have hhand : m.reader.inHand = [] := by rw [hr]; rfl
    rw [hhand, List.append_nil] at hcontent
    obtain ⟨hlen, hsplit, hformed, hused⟩ := Circular.read_spec h.formed (Nat.min_le_right n m.sess.ring.used)
    simp only [Session.receiveData]
    have hroom := h.room
    refine ⟨hformed, by show _ ≤ _; rw [hused]; omega, ?_, ?_, h.ended, by simp, ?_, by simp, h.zeros⟩
    · rw [hsplit, ← List.append_assoc] at hcontent
      exact hcontent
    · intro hpos
      exact .inr (.inr (.inr ⟨_, congrArg (Reader.copied _) (decide_eq_true hpos)⟩))
    · -- nothing was taken: the ring was empty, and the file complete
      intro more hcopied
      injection hcopied with hnil
      rw [hnil, List.length_nil] at hlen
      have hempty : m.sess.ring.used = 0 := by omega
      have hc := (h.copying n hr).resolve_left (by omega)
      exact h.whole hs hc hempty hhand
  | copied out more =>
    rw [hr] at hcontent
    simp only [hr, reduceCtorEq, exists_false, false_or, Reader.copied.injEq] at hann
    have hann' : 0 < m.sess.ring.used → (m.sig.dataReady || more) = true ∨ ∃ short, m.pc = .signal short := by
      intro hpos
      rcases hann hpos with hd | hp | ⟨_, _, hmore⟩
      · exact .inl (by simp [hd])
      · exact .inr hp
      · exact .inl (by simp [hmore])
    have htaken : out = [] → m.returned = file := by
      rintro rfl
      exact h.taken more hr
    refine Flow.giveBack ?_ rfl hann' htaken
    exact ⟨h.formed, h.room, hcontent, fun hpos => (hann' hpos).imp_right .inl, h.ended, by simp,
      by simpa using htaken, by simp, h.zeros⟩
  | closed => exact h
  | idle => exact h

/-! ### Whole runs -/

/-- The task, the server and the reader together. -/
structure Inv (file : Bytes) (m : Machine) : Prop where
  stepped : m.Stepped file
  flow : m.Flow file

theorem Inv.init (file : Bytes) : Inv file Machine.init where
  stepped :=
    { stored := rfl
      last := rfl
      small := Nat.zero_le _
      current := Nat.zero_le _
      current_le := Nat.zero_le _
      stored_le := Nat.zero_le _
      seq := rfl
      parsed := .inr (.inl le_rfl)
      state := .inr (.inl rfl)
      started := .inr fun h => by simp [Machine.init] at h
      live := fun h => by simp [Machine.init, Pc.Inside] at h
      acks := fun x hx => by simp [Machine.init] at hx }
  flow :=
    { formed := ⟨by decide, rfl⟩
      room := Nat.zero_le _
      content := by simp [Machine.init, Circular.content, Reader.inHand]
      announced := fun h => absurd h (Nat.lt_irrefl 0)
      ended := fun h => by simp [Machine.init] at h
      copying := fun n h => by simp [Machine.init] at h
      taken := fun more h => by simp [Machine.init] at h
      asked := fun n h => by simp [Machine.init] at h
      zeros := fun z hz => by simp [Machine.init] at hz }

/-- The task's other steps change only its place, the status and the error code. -/
theorem Stepped.task (h : m.Stepped file) : m.taskStep.Stepped file := by
  have hlive := h.live
  rw [taskStep]
  cases hpc : m.pc with
  | loop =>
    simp only []
    split
    · rename_i hrun
      have hne : m.sess.status ≠ .stop := by rcases hrun with h | h <;> simp [h]
      split
      · exact h.congr rfl rfl rfl rfl rfl rfl rfl (.inl rfl) fun _ => hne
      · exact h.congr rfl rfl rfl rfl rfl rfl rfl (.inl rfl) fun _ => hne
    · exact h.congr rfl rfl rfl rfl rfl rfl rfl (.inl rfl) (by simp [Pc.Inside])
  | waitBuf =>
    have hne := hlive (by rw [hpc]; trivial)
    simp only []
    split
    · exact h.congr rfl rfl rfl rfl rfl rfl rfl (.inl rfl) fun _ => hne
    · exact h
  | select => exact h
  | signal short =>
    have hne := hlive (by rw [hpc]; trivial)
    exact h.congr rfl rfl rfl rfl rfl rfl rfl (.inl rfl) fun _ => hne
  | finishing =>
    have hne := hlive (by rw [hpc]; trivial)
    exact h.congr rfl rfl rfl rfl rfl rfl rfl (.inr ⟨by simp, hne⟩) (by simp [Pc.Inside])
  | failing e => exact h.congr rfl rfl rfl rfl rfl rfl rfl (.inl rfl) (by simp [Pc.Inside])
  | exit =>
    simp only []
    split
    · exact h.congr rfl rfl rfl rfl rfl rfl rfl (.inl rfl) (by simp [Pc.Inside])
    · exact h.congr rfl rfl rfl rfl rfl rfl rfl (.inl rfl) (by simp [Pc.Inside])
  | done => exact h

/-- The reader changes nothing of it. -/
theorem Stepped.reader (h : m.Stepped file) : m.readerStep.Stepped file := by
  have hlive := h.live
  have hsame : ∀ m' : Machine, m'.stored = m.stored → m'.acks = m.acks → m'.current = m.current →
      m'.parsed = m.parsed → m'.sess = { m.sess with ring := m'.sess.ring } → m'.pc = m.pc → m'.Stepped file := by
    intro m' hstored hacks hcurrent hparsed hsess hpc
    refine h.congr hstored hacks hcurrent hparsed ?_ ?_ ?_ (.inl ?_) ?_
    · rw [hsess]
    · rw [hsess]
    · rw [hsess]
    · rw [hsess]
    · rw [hpc, hsess]
      exact hlive
  rw [readerStep]
  cases m.reader with
  | init =>
    simp only []
    split
    · exact hsame _ rfl rfl rfl rfl rfl rfl
    · exact h
  | checked n =>
    simp only []
    split
    · exact hsame _ rfl rfl rfl rfl rfl rfl
    · exact hsame _ rfl rfl rfl rfl rfl rfl
  | waiting n =>
    simp only []
    split
    · split
      · exact hsame _ rfl rfl rfl rfl rfl rfl
      · exact hsame _ rfl rfl rfl rfl rfl rfl
    · exact h
  | copying n => exact hsame _ rfl rfl rfl rfl rfl rfl
  | copied out more => exact hsame _ rfl rfl rfl rfl rfl rfl
  | closed => exact h
  | idle => exact h

/-- An action at `select`. -/
theorem Inv.pass {a : Act} (h : Inv file m) (hok : Orderly file m a) :
    Inv file (if m.pc = .select then
      match m.pass file a with
      | some (parsed, o) => m.afterPass parsed o
      | none => m
    else m) := by
  split
  · rename_i hpc
    split
    · rename_i p o ho
      obtain ⟨hs, ho⟩ := h.stepped.pass hpc hok ho
      exact ⟨hs, h.flow.pass hpc ho⟩
    · exact h
  · exact h

/-- An orderly step keeps the invariant. -/
theorem Inv.step {a : Act} (h : Inv file m) (hok : Orderly file m a) : Inv file (m.step file a) := by
  cases a with
  | task => exact ⟨h.stepped.task, h.flow.task⟩
  | reader => exact ⟨h.stepped.reader, h.flow.reader h.stepped hok⟩
  | call n =>
    simp only [Machine.step]
    split
    · rename_i hcall
      obtain ⟨hidle, hn, -, -⟩ := hcall
      have hf := h.flow
      have hann := hf.announced
      have hcontent := hf.content
      rw [hidle] at hann hcontent
      refine ⟨h.stepped.congr rfl rfl rfl rfl rfl rfl rfl (.inl rfl) h.stepped.live, ?_⟩
      exact ⟨hf.formed, hf.room, hcontent, by simpa using hann, hf.ended, by simp, by simp, by simpa using hn,
        hf.zeros⟩
    · exact h
  | request =>
    simp only [Machine.step]
    split
    · have hs := h.stepped
      have hf := h.flow
      refine ⟨?_, hf.formed, hf.room, hf.content, hf.announced, hf.ended, hf.copying, hf.taken, hf.asked, hf.zeros⟩
      exact ⟨hs.stored, hs.last, hs.small, Nat.le_add_left .., Nat.le_add_left .., hs.stored_le, hs.seq, hs.parsed,
        hs.state, hs.started, hs.live, hs.acks⟩
    · exact h
  | ack number =>
    simp only [Machine.step]
    split
    · rename_i hack
      obtain ⟨⟨x, hx, rfl⟩, hnum, -, hlt⟩ := hack
      have hs := h.stepped
      have hf := h.flow
      have hcur := hs.served hx hnum
      refine ⟨?_, hf.formed, hf.room, hf.content, hf.announced, hf.ended, hf.copying, hf.taken, hf.asked, hf.zeros⟩
      exact ⟨hs.stored, hs.last, hs.small, Nat.succ_le_succ hcur, hlt, hs.stored_le, hs.seq, hs.parsed,
        hs.state, hs.started, hs.live, hs.acks⟩
    · exact h
  | selectFailed => exact h.pass hok
  | recvFailed => exact h.pass hok
  | recvEmpty => exact h.pass hok
  | quiet late => exact h.pass hok
  | data i connected late => exact h.pass hok
  | refusal rest connected late => exact h.pass hok
  | stranger pkt late => exact h.pass hok

/-- The invariant gives what the download promises. -/
theorem Inv.exact (h : Inv file m) : Exact file m where
  returned := by
    have hcontent := h.flow.content
    rw [List.append_assoc] at hcontent
    exact (hcontent ▸ List.prefix_append ..).trans (List.take_prefix ..)
  receiveData := h.flow.room
  acks := by
    intro x hx j hj hle
    obtain ⟨_, _, hb, hr, _⟩ := h.stepped.acks x hx
    rw [hr, List.mem_range'_1]
    omega
  zeros := h.flow.zeros

theorem Inv.run {as : List Act} (h : Inv file m) (hok : Along (fun m a => m.step file a) (Orderly file) m as) :
    Inv file (m.run file as) := by
  induction as generalizing m with
  | nil => exact h
  | cons a as ih => exact ih (h.step hok.1) hok.2

/-- In every run whose steps are all orderly, whatever the file, the network, the schedule and the buffers, the
    bytes returned are a prefix of the file, the ring never holds more than it has room for, only stored blocks are
    acknowledged, and `QAPI_OK` with size 0 means that the whole file has been returned. -/
theorem download_exact (file : Bytes) (as : List Act)
    (hok : Along (fun m a => m.step file a) (Orderly file) Machine.init as) :
    Exact file (Machine.init.run file as) :=
  ((Inv.init file).run hok).exact

/-- A file of one byte, taken by a call that is under way before the task marks the last block. -/
theorem download_exact_one : Exact [65] (Machine.init.run [65]
    [.request, .task, .data 1 true false, .reader, .task, .reader, .call 4, .reader, .reader, .reader, .reader]) ∧
    (Machine.init.run [65] [.request, .task, .data 1 true false, .reader, .task, .reader, .call 4, .reader, .reader,
      .reader, .reader]).returned = [65] :=
  ⟨download_exact [65] _ (by decide), by decide⟩

/-- The last block of a file turns the status from `RUNNING`, and a call that comes then returns `QAPI_OK` with size
    0 while the block is still in the ring. -/
theorem last_block_not_returned : ¬ Exact [65] (Machine.init.run [65]
    [.request, .task, .data 1 true false, .task, .reader, .task, .call 4, .reader]) := by
  intro h
  exact absurd (h.zeros [] (by decide)) (by decide)

end Machine

end Qcc730.Ota.Tftp
