import Qcc730.Ring.A2f
import Qcc730.DataSvc.Tcp

/-! The stream of a TCP connection, from its A2F ring to lwIP.

    The connection has a ring of its own. Its thread takes a packet with `data_svc_process_tcp_pkt`, which refuses it
    while another one is being written; the ring then keeps it and offers it again. What was accepted is written in
    pieces, by that call and by later calls of `data_svc_tcp_sent`.

    An element names its connection in `info`. The host may put packets of any connection into the ring; those
    of another one are not part of this stream, and whether they are accepted is left open. A buffer is numbered by
    its allocation, so that the host fills it once: `mem` says with what. -/

namespace Qcc730.DataSvc
open Lib Qcc730.Ring

/-- `data_svc_process_tcp_pkt` takes the connection from the low byte of `info`. -/
def connOf (e : Element) : ℕ := e.info % 256

/-- The buffer of an element. -/
def sendBuffOf (e : Element) : SendBuff := ⟨e.pBufStart, u16 e.len⟩

/-- A connection with its ring. -/
structure Link where
  ring : A2f
  traffic : Traffic

inductive LinkAct where
  /-- the host puts a packet into the ring -/
  | host (len info : ℕ)
  /-- the thread of the ring gets one statement on; `other` is whether a packet of another connection is accepted -/
  | call (alloc : Bool) (sndbuf fails : ℕ) (other : Bool) (fresh : Option Packet)
  /-- `data_svc_tcp_sent` -/
  | sent (len : ℕ) (rsp cfm : Bool) (sndbuf fails : ℕ)

namespace Link

def create (numElem writeIdx : ℕ) (pfnRefillElem : ℕ → Option Packet) : Link :=
  ⟨A2f.create numElem writeIdx pfnRefillElem, .start⟩

/-- `pfn_process` for an element: whether it is processed, and the connection `id`. -/
def processPkt (id : ℕ) (t : Traffic) (e : Element) (alloc : Bool) (sndbuf fails : ℕ) (other : Bool) :
    Bool × Traffic :=
  if connOf e = id then
    ((t.conn.processTcpPkt e.pBufStart e.len alloc sndbuf fails).1,
      t.step (.packet e.pBufStart e.len alloc sndbuf fails))
  else (other, t)

/-- Nothing happens after a fault. -/
def act (id : ℕ) (s : Link) (a : LinkAct) : Link :=
  if s.traffic.fault then s
  else
    match a with
    | .host len info => { s with ring := s.ring.host len info }
    | .call alloc sndbuf fails other fresh =>
      match s.ring.call with
      | .item idx =>
        if (s.ring.ring.elem idx).Filled then
          let r := processPkt id s.traffic (s.ring.ring.elem idx) alloc sndbuf fails other
          ⟨s.ring.process r.1 fresh, r.2⟩
        else { s with ring := s.ring.process true fresh }
      | _ => { s with ring := s.ring.process true fresh }
    | .sent len rsp cfm sndbuf fails => { s with traffic := s.traffic.step (.sent len rsp cfm sndbuf fails) }

/-- One step of one of the parties. -/
def Step (id : ℕ) (s s' : Link) : Prop := ∃ a, s' = s.act id a

end Link

/-! ### What is written -/

section

variable (mem : ℕ → ℕ → UInt8)

/-- The bytes of a buffer. -/
def SendBuff.bytes (b : SendBuff) : List UInt8 := (List.range b.len).map (mem b.pbuf)

/-- The bytes of a write. -/
def Write.bytes (w : Write) : List UInt8 := (List.range w.len).map fun i => mem w.pbuf (w.offset + i)

/-- Everything lwIP has taken, in order. -/
def Traffic.stream (s : Traffic) : List UInt8 := s.writes.flatMap (Write.bytes mem)

/-- The payloads of the host's packets for the connection `id`, in order. -/
def hostStream (id : ℕ) (es : List Element) : List UInt8 :=
  (es.filter fun e => connOf e = id).flatMap fun e => (sendBuffOf e).bytes mem

/-- The part of the buffer in `send_buff` that is written. -/
def TcpConn.begun (c : TcpConn) : List UInt8 :=
  match c.sendBuff with
  | none => []
  | some b => (b.bytes mem).take c.sentLength

variable {mem}

/-- A write continues the bytes of its buffer. -/
theorem take_append_write {b : SendBuff} {o n : ℕ} (h : o + n ≤ b.len) :
    (b.bytes mem).take o ++ Write.bytes mem ⟨b.pbuf, o, n⟩ = (b.bytes mem).take (o + n) := by
  have htake : ∀ k ≤ b.len, (b.bytes mem).take k = (List.range k).map (mem b.pbuf) := by
    intro k hk
    rw [SendBuff.bytes, ← List.map_take, List.take_range, min_eq_left hk]
  rw [htake o (by omega), htake (o + n) h, List.range_add, List.map_append, List.map_map]
  rfl

/-- What is written are the accepted buffers up to the one in `send_buff`, and the beginning of that. -/
structure Traffic.Streamed (mem : ℕ → ℕ → UInt8) (s : Traffic) : Prop where
  opened : s.conn.Open
  stream : ∃ done, s.taken = done ++ s.conn.sendBuff.toList ∧
    s.stream mem = done.flatMap (SendBuff.bytes mem) ++ s.conn.begun mem

variable {s : Traffic}

theorem Traffic.streamed_start : Traffic.start.Streamed mem := ⟨rfl, [], rfl, rfl⟩

theorem Traffic.Streamed.sendOut (h : s.Streamed mem) {c : TcpConn} (ho : c.Open) (hb : c.sendBuff = s.conn.sendBuff)
    (hl : c.sentLength = s.conn.sentLength) (sndbuf fails acked : ℕ) (freed : List SendBuff) (fault : Bool) :
    Traffic.Streamed mem ⟨(c.sendDataOut sndbuf fails).1, s.taken, s.writes ++ (c.sendDataOut sndbuf fails).2, acked,
      freed, fault⟩ := by
  obtain ⟨done, htaken, hstream⟩ := h.stream
  have happ : ∀ c' ws, Traffic.stream mem ⟨c', s.taken, s.writes ++ ws, acked, freed, fault⟩ =
      done.flatMap (SendBuff.bytes mem) ++ (s.conn.begun mem ++ ws.flatMap (Write.bytes mem)) := by
    intro c' ws
    rw [← List.append_assoc, ← hstream, Traffic.stream, List.flatMap_append, Traffic.stream]
  rcases TcpConn.sendDataOut_cases ho sndbuf fails with ⟨hn, heq⟩ | ⟨b, n, ws, hsb, hle, hws, hend⟩
  · rw [heq]
    refine ⟨ho, done, by rw [hb]; exact htaken, ?_⟩
    rw [happ, List.flatMap_nil, List.append_nil, TcpConn.begun, TcpConn.begun, hb, hl]
  -- the bytes of this write follow those of the earlier ones
  have hmore : s.conn.begun mem ++ ws.flatMap (Write.bytes mem) = (b.bytes mem).take (c.sentLength + n) := by
    rw [TcpConn.begun, ← hb, hsb, ← hl]
    rcases hws with ⟨rfl, rfl⟩ | ⟨-, rfl⟩
    · simp
    · simpa using take_append_write hle
  rw [← hb, hsb, Option.toList_some] at htaken
  have hopen := ho
  rw [TcpConn.Open, hsb] at hopen
  rcases hend with ⟨hfull, heq⟩ | ⟨hpart, heq⟩ <;> rw [heq]
  · refine ⟨rfl, done ++ [b], by simpa using htaken, ?_⟩
    have hall : (b.bytes mem).take (c.sentLength + n) = b.bytes mem := by
      rw [hfull]
      exact List.take_of_length_le (by simp [SendBuff.bytes])
    rw [happ, hmore, hall, TcpConn.begun, List.flatMap_append]
    simp
  · refine ⟨?_, done, by rw [hsb]; exact htaken, ?_⟩
    · rw [TcpConn.Open]
      dsimp only
      rw [hsb]
      exact ⟨hopen.1, hpart⟩
    · rw [happ, hmore, TcpConn.begun]
      dsimp only
      rw [hsb]

/-- Every event of the connection goes on with the stream. -/
theorem Traffic.Streamed.step (h : s.Streamed mem) (e : TcpEvent) : (s.step e).Streamed mem := by
  unfold Traffic.step
  split
  · exact h
  cases e with
  | packet pbuf len alloc sndbuf fails =>
    dsimp only
    rcases s.conn.processTcpPkt_cases pbuf len alloc sndbuf fails with heq | ⟨hb, heq⟩ <;> rw [heq]
    · simpa using h
    have hopen := h.opened
    rw [TcpConn.Open, hb] at hopen
    have hnew : Traffic.Streamed mem { s with
        conn := { s.conn with sendBuff := some ⟨pbuf, u16 len⟩ }, taken := s.taken ++ [⟨pbuf, u16 len⟩] } := by
      obtain ⟨done, htaken, hstream⟩ := h.stream
      refine ⟨⟨u16_lt _, .inl hopen⟩, done, ?_, ?_⟩
      · rw [hb] at htaken
        simpa using htaken
      · rw [TcpConn.begun, hb] at hstream
        rw [TcpConn.begun]
        dsimp only
        rw [hopen]
        simpa [Traffic.stream] using hstream
    exact hnew.sendOut hnew.opened rfl rfl sndbuf fails _ _ _
  | sent len rsp cfm sndbuf fails =>
    dsimp only
    split
    · by_cases hl : s.conn.ackList = []
      · rw [TcpConn.tcpSent_nil hl]
        exact h.sendOut (c := { s.conn with ackLength := u16 (s.conn.ackLength + len) }) h.opened rfl rfl sndbuf fails _
          _ _
      · rw [TcpConn.tcpSent_of_ne_nil hl]
        rcases TcpConn.freeAcked (u16 (s.conn.ackLength + len)) s.conn.ackList with _ | ⟨f, a, r⟩
        · exact ⟨h.opened, h.stream⟩
        · exact h.sendOut (c := { s.conn with ackLength := a, ackList := r }) h.opened rfl rfl sndbuf fails _ _ _
    · exact ⟨h.opened, h.stream⟩

theorem Traffic.Streamed.prefix_taken (h : s.Streamed mem) : s.stream mem <+: s.taken.flatMap (SendBuff.bytes mem) := by
  obtain ⟨done, htaken, hstream⟩ := h.stream
  rw [hstream, htaken, List.flatMap_append, List.prefix_append_right_inj, TcpConn.begun]
  rcases s.conn.sendBuff with _ | b
  · exact List.nil_prefix
  · simpa using List.take_prefix _ _

/-! ### The ring and the stream -/

variable {id : ℕ} {s : Link}

/-- What the ring has handed over is what the connection has accepted. -/
structure Link.Inv (b n : ℕ) (whole : Bool) (id : ℕ) (mem : ℕ → ℕ → UInt8) (s : Link) : Prop where
  ring : s.ring.Inv b n whole
  traffic : s.traffic.Streamed mem
  taken : s.traffic.taken = (s.ring.processed.filter fun e => connOf e = id).map sendBuffOf

theorem processPkt_cases (t : Traffic) (hf : t.fault = false) (e : Element) (alloc : Bool) (sndbuf fails : ℕ)
    (other : Bool) (ht : t.Streamed mem) :
    let r := Link.processPkt id t e alloc sndbuf fails other
    r.2.Streamed mem ∧ r.2.taken = if r.1 ∧ connOf e = id then t.taken ++ [sendBuffOf e] else t.taken := by
  intro r
  by_cases hid : connOf e = id
  · simp only [r, Link.processPkt, if_pos hid]
    refine ⟨ht.step _, ?_⟩
    simp only [Traffic.step, hf, hid, and_true, Bool.false_eq_true, if_false, sendBuffOf]
  · simp only [r, Link.processPkt, if_neg hid]
    exact ⟨ht, by simp [hid]⟩

variable {b n : ℕ} {whole : Bool}

/-- The element that is handed over is appended to those processed. -/
theorem Ring.process_item {r : A2f} {idx : ℕ} (hc : r.call = .item idx) (hf : (r.ring.elem idx).Filled) (ok : Bool)
    (fresh : Option Packet) :
    (r.process ok fresh).processed = if ok then r.processed ++ [r.ring.elem idx] else r.processed := by
  simp only [A2f.process, hc, if_pos hf]
  split <;> rfl

theorem Ring.process_other {r : A2f} (h : ∀ idx, r.call = .item idx → ¬ (r.ring.elem idx).Filled) (ok : Bool)
    (fresh : Option Packet) : (r.process ok fresh).processed = r.processed := by
  rw [A2f.process]
  split
  · split <;> rfl
  · split <;> rfl
  · rw [if_neg (h _ ‹_›)]
  · split <;> rfl
  · rfl

theorem Ring.host_processed (r : A2f) (len info : ℕ) : (r.host len info).processed = r.processed := by
  rw [A2f.host]
  dsimp only
  split <;> rfl

theorem Link.Inv.act (h : s.Inv b n whole id mem) (a : LinkAct) : (s.act id a).Inv b n whole id mem := by
  unfold Link.act
  split
  · exact h
  rename_i hfault
  have hf : s.traffic.fault = false := by simpa using hfault
  cases a with
  | host len info => exact ⟨h.ring.host len info, h.traffic, by dsimp only; rw [Ring.host_processed]; exact h.taken⟩
  | sent len rsp cfm sndbuf fails =>
    dsimp only
    refine ⟨h.ring, h.traffic.step (.sent len rsp cfm sndbuf fails), ?_⟩
    rw [← h.taken]
    simp only [Traffic.step, hf, Bool.false_eq_true, if_false]
    split
    · rcases s.traffic.conn.tcpSent len sndbuf fails with _ | ⟨f, c, ws⟩ <;> rfl
    · rfl
  | call alloc sndbuf fails other fresh =>
    dsimp only
    split
    · rename_i idx hc
      split
      · rename_i hfill
        obtain ⟨hstr, htk⟩ := @processPkt_cases mem id s.traffic hf (s.ring.ring.elem idx) alloc sndbuf fails other
          h.traffic
        refine ⟨h.ring.process _ _, hstr, ?_⟩
        dsimp only
        rw [Ring.process_item hc hfill, htk, h.taken]
        by_cases hok : (Link.processPkt id s.traffic (s.ring.ring.elem idx) alloc sndbuf fails other).1 = true <;>
          by_cases hid : connOf (s.ring.ring.elem idx) = id <;> simp [hok, hid]
      · rename_i hfill
        refine ⟨h.ring.process _ _, h.traffic, ?_⟩
        dsimp only
        rw [Ring.process_other (by
          intro j hj
          rw [hc] at hj
          cases hj
          exact hfill)]
        exact h.taken
    · rename_i hc
      refine ⟨h.ring.process _ _, h.traffic, ?_⟩
      dsimp only
      rw [Ring.process_other (fun idx hi => absurd hi (hc idx))]
      exact h.taken

/-- The stream of a connection is at all times a prefix of what the host has sent on it, whatever lwIP, the
    host and the allocations do. -/
theorem stream_unchanged (mem : ℕ → ℕ → UInt8) (id : ℕ) {n w : ℕ} {f : ℕ → Option Packet} (hn : 2 ≤ n) {s : Link}
    (h : Reach (Link.Step id) (.create n w f) s) : s.traffic.stream mem <+: hostStream mem id s.ring.written := by
  have hstart : (Link.create n w f).Inv (RingCtx.createA2fRing n w).writeIdx n
      ((RingCtx.createA2fRing n w).a2fRefillBufs f).1 id mem :=
    ⟨A2f.inv_create hn w f, Traffic.streamed_start, rfl⟩
  have hinv := h.inv hstart (by rintro x _ ⟨a, rfl⟩ hx; exact hx.act a)
  refine hinv.traffic.prefix_taken.trans ?_
  have hpre : s.ring.processed <+: s.ring.written := by
    rw [hinv.ring.order]
    exact List.take_prefix _ _
  rw [hinv.taken, List.flatMap_map]
  exact (hpre.filter _).flatMap _

/-- A packet of five bytes is written in two parts. Meanwhile the second one is refused. -/
theorem stream_unchanged_refused :
    let s := ([.host 5 3, .host 1 3, .call true 100 1 true none, .call true 100 1 true none, .call true 100 1 true none,
      .call true 100 1 true (some ⟨⟨48, 8, 0, 48⟩, by decide⟩), .call true 100 0 true none, .call true 100 0 true none,
      .call true 100 0 true none, .sent 2 true true 100 0] : List LinkAct).foldl (Link.act 3)
      (.create 3 0 fun i => some ⟨⟨16 * (i + 1), 8, 0, 16 * (i + 1)⟩, by simp [Element.Filled]⟩)
    s.traffic.stream (fun _ i => .ofNat i) = [0, 1, 2, 3, 4] ∧
      s.traffic.stream (fun _ i => .ofNat i) <+: hostStream (fun _ i => .ofNat i) 3 s.ring.written := by
  intro s
  exact ⟨by decide +kernel, stream_unchanged _ 3 (by decide) (.foldl (Link.act 3) _ _)⟩

end

end Qcc730.DataSvc
