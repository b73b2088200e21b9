import Qcc730.DataSvc.Closing
import Qcc730.DataSvc.RawEth
import Qcc730.DataSvc.Tcp

/-! The buffers of packets, from the host and to it.

    A packet of the host lies in a buffer of lwIP that an element of an A2F ring points to. The callback of the ring
    frees it or hands it on, or returns FALSE, and the ring offers the element again. A packet for the host is a chain
    of buffers that lwIP delivers; the callback attaches it to an F2A ring, frees it or refuses it. -/

namespace Qcc730.DataSvc

/-! ### Packets of the host -/

/-- `struct pbuf`: which allocation it is, what its payload points to, its lengths, and how often `pbuf_free` was called
    for it. -/
structure Pbuf where
  id : ℕ
  bytes : List UInt8
  len : ℕ
  totLen : ℕ
  freed : ℕ
  deriving DecidableEq, Repr

/-- `pbuf_free` -/
def Pbuf.free (p : Pbuf) : Pbuf := { p with freed := p.freed + 1 }

/-- The length is written to a buffer before it is sent. -/
def Pbuf.setLen (p : Pbuf) (len : ℕ) : Pbuf := { p with len := u16 len, totLen := u16 len }

/-- `ring_element_t` -/
structure Elem where
  pbuf : Pbuf
  len : ℕ
  info : ℕ
  deriving DecidableEq, Repr

/-- What takes a buffer to send it: `udp_send` of lwIP, and `nt_low_level_output` of the driver. -/
structure Net where
  udpSend : Pbuf → Err × Pbuf
  lowLevelOutput : Pbuf → Err × Pbuf

/-- Neither frees the buffer or writes to its payload, whether it succeeds or not; a reference of its own it takes and
    drops itself. -/
structure Net.Keeps (n : Net) : Prop where
  udpSend : ∀ p, (n.udpSend p).2.freed = p.freed ∧ (n.udpSend p).2.bytes = p.bytes
  lowLevelOutput : ∀ p, (n.lowLevelOutput p).2.freed = p.freed ∧ (n.lowLevelOutput p).2.bytes = p.bytes

/-- The tables, the send side of each TCP connection, and the addresses of the interfaces. -/
structure Sender where
  svc : Svc
  tcp : ℕ → TcpConn
  hwaddr : ℕ → Option ℕ

/-- What a callback returns, the buffer and the TCP connections afterwards. -/
structure Processed where
  ret : Bool
  pbuf : Pbuf
  tcp : ℕ → TcpConn

/-- A number in network order. -/
def bytesOf (n v : ℕ) : List UInt8 := (List.range n).map fun i => UInt8.ofNat (v >>> (8 * (n - 1 - i)))

/-- The header of a frame. -/
def EthernetHeader.encode (h : EthernetHeader) : List UInt8 :=
  bytesOf 6 h.destinationAddress ++ bytesOf 6 h.sourceAddress ++ bytesOf 2 h.frameType

namespace Sender

/-- `data_svc_get_conn_handler_from_id` for the id in an element, of which 8 bits are taken. -/
def conn (s : Sender) (e : Elem) : Option ConnHandler := s.svc.connFromId (e.info % 256)

/-- `data_svc_process_tcp_pkt`; `alloc`, `sndbuf` and `fails` are for the memory and lwIP. -/
def processTcpPkt (s : Sender) (e : Elem) (alloc : Bool) (sndbuf fails : ℕ) : Processed :=
  match s.conn e with
  | some _ =>
    let (ret, c, _) := (s.tcp (e.info % 256)).processTcpPkt e.pbuf.id e.len alloc sndbuf fails
    ⟨ret, if ret then e.pbuf.setLen e.len else e.pbuf, Function.update s.tcp (e.info % 256) c⟩
  | none => ⟨false, e.pbuf, s.tcp⟩

/-- `data_svc_process_udp_pkt` -/
def processUdpPkt (s : Sender) (n : Net) (e : Elem) : Processed :=
  let pbuf := e.pbuf.setLen e.len
  match s.conn e with
  | some _ =>
    let (err, pbuf) := n.udpSend pbuf
    if err ≠ .ok then ⟨false, pbuf, s.tcp⟩ else ⟨true, pbuf.free, s.tcp⟩
  | none => ⟨false, pbuf.free, s.tcp⟩

/-- `data_svc_process_raweth_pkt` -/
def processRawethPkt (s : Sender) (n : Net) (e : Elem) : Processed :=
  let pbuf := e.pbuf.setLen (e.len + ethernetHeaderSize)
  match s.conn e with
  | some h =>
    match s.hwaddr h.netifId with
    | some hwaddr =>
      let hdr := (EthernetHeader.mk h.destMac hwaddr h.ethType).encode
      let (err, pbuf) := n.lowLevelOutput { pbuf with bytes := hdr ++ pbuf.bytes.drop ethernetHeaderSize }
      if err ≠ .ok then ⟨false, pbuf, s.tcp⟩ else ⟨true, pbuf.free, s.tcp⟩
    | none => ⟨true, pbuf.free, s.tcp⟩
  | none => ⟨true, pbuf.free, s.tcp⟩

end Sender

/-- The callbacks of the A2F data rings. -/
inductive Callback where
  | tcp (alloc : Bool) (sndbuf fails : ℕ)
  | udp
  | raweth
  deriving DecidableEq, Repr

namespace Callback

/-- A callback is called for an element. -/
def process (c : Callback) (s : Sender) (n : Net) (e : Elem) : Processed :=
  match c with
  | .tcp alloc sndbuf fails => s.processTcpPkt e alloc sndbuf fails
  | .udp => s.processUdpPkt n e
  | .raweth => s.processRawethPkt n e

/-- Where the packet of the host starts in the buffer. -/
def headerSize : Callback → ℕ
  | .raweth => ethernetHeaderSize
  | _ => 0

/-- The buffer has one owner: with TRUE it was freed once, or a TCP connection holds it; with FALSE it was not freed,
    its payload is what it was, and no connection has changed. -/
def OneOwner (c : Callback) (s : Sender) (e : Elem) (r : Processed) : Prop :=
  if r.ret then
    (r.pbuf.freed = e.pbuf.freed + 1 ∧ r.tcp = s.tcp) ∨
      (r.pbuf.freed = e.pbuf.freed ∧
        ∃ i, ∃ b ∈ (r.tcp i).sendBuff.toList ++ (r.tcp i).ackList, b.pbuf = e.pbuf.id)
  else
    r.pbuf.freed = e.pbuf.freed ∧ r.pbuf.bytes.drop c.headerSize = e.pbuf.bytes.drop c.headerSize ∧ r.tcp = s.tcp

end Callback

variable {s : Sender} {n : Net} {e : Elem}

/-- `send_data_out` keeps the buffer it writes. -/
theorem TcpConn.sendDataOut_holds {c : TcpConn} {b : SendBuff} (h : c.sendBuff = some b) (sndbuf fails : ℕ) :
    b ∈ (c.sendDataOut sndbuf fails).1.sendBuff.toList ++ (c.sendDataOut sndbuf fails).1.ackList := by
  simp only [sendDataOut, h]
  split
  · simp [h]
  · generalize writeLoop fails _ = w
    generalize (if 0 < w then u16 (c.sentLength + w) else c.sentLength) = sent
    by_cases hend : sent = b.len
    · simp [hend]
    · simp [hend]

theorem processTcpPkt_owner (alloc : Bool) (sndbuf fails : ℕ) :
    (Callback.tcp alloc sndbuf fails).OneOwner s e (s.processTcpPkt e alloc sndbuf fails) := by
  rw [Sender.processTcpPkt]
  cases hconn : s.conn e with
  | none => exact ⟨rfl, rfl, rfl⟩
  | some h =>
    obtain heq | ⟨-, heq⟩ := (s.tcp (e.info % 256)).processTcpPkt_cases e.pbuf.id e.len alloc sndbuf fails
    · simp only [heq, Function.update_eq_self]
      exact ⟨rfl, rfl, rfl⟩
    · simp only [heq]
      refine .inr ⟨rfl, e.info % 256, ⟨e.pbuf.id, u16 e.len⟩, ?_, rfl⟩
      simp only [Function.update_self]
      exact TcpConn.sendDataOut_holds rfl sndbuf fails

theorem processRawethPkt_owner (hn : n.Keeps) : Callback.raweth.OneOwner s e (s.processRawethPkt n e) := by
  have hheader : ∀ h : EthernetHeader, h.encode.length = ethernetHeaderSize := by
    intro h
    simp [EthernetHeader.encode, bytesOf, ethernetHeaderSize]
  rw [Sender.processRawethPkt]
  cases hconn : s.conn e with
  | none => exact .inl ⟨rfl, rfl⟩
  | some h =>
    cases hnetif : s.hwaddr h.netifId with
    | none =>
      simp only [hnetif]
      exact .inl ⟨rfl, rfl⟩
    | some hwaddr =>
      simp only [hnetif]
      generalize hp : Pbuf.mk _ _ _ _ _ = p
      obtain ⟨hfreed, hbytes⟩ := hn.lowLevelOutput p
      have hp' : p.freed = e.pbuf.freed ∧ p.bytes.drop ethernetHeaderSize = e.pbuf.bytes.drop ethernetHeaderSize := by
        rw [← hp]
        exact ⟨rfl, List.drop_left' (hheader _)⟩
      by_cases herr : (n.lowLevelOutput p).1 = .ok
      · rw [if_neg (not_not.mpr herr)]
        refine .inl ⟨?_, rfl⟩
        rw [Pbuf.free, hfreed, hp'.1]
      · rw [if_pos herr]
        refine ⟨hfreed.trans hp'.1, ?_, rfl⟩
        rw [hbytes]
        exact hp'.2

/-- Of UDP only what is sent or refused by lwIP has one owner. -/
theorem processUdpPkt_owner_iff (hn : n.Keeps) :
    Callback.udp.OneOwner s e (s.processUdpPkt n e) ↔ s.conn e ≠ none := by
  rw [Sender.processUdpPkt]
  cases hconn : s.conn e with
  | none =>
    refine iff_of_false (fun h => ?_) (by simp)
    have : e.pbuf.freed + 1 = e.pbuf.freed := h.1
    omega
  | some h =>
    refine iff_of_true ?_ (by simp)
    obtain ⟨hfreed, hbytes⟩ := hn.udpSend (e.pbuf.setLen e.len)
    by_cases herr : (n.udpSend (e.pbuf.setLen e.len)).1 = .ok
    · simp only [herr, ne_eq, not_true_eq_false, if_false]
      refine .inl ⟨?_, rfl⟩
      rw [Pbuf.free, hfreed]
      rfl
    · simp only [ne_eq, herr, not_false_eq_true, if_true]
      refine ⟨hfreed, ?_, rfl⟩
      rw [hbytes]
      rfl

/-- A packet's buffer has one owner, except for one of UDP whose connection is not there. -/
theorem one_owner_iff (c : Callback) (s : Sender) (n : Net) (hn : n.Keeps) (e : Elem) :
    c.OneOwner s e (c.process s n e) ↔ ¬ (c = .udp ∧ s.svc.connFromId (e.info % 256) = none) := by
  cases c with
  | tcp alloc sndbuf fails => exact iff_of_true (processTcpPkt_owner alloc sndbuf fails) (by simp)
  | raweth => exact iff_of_true (processRawethPkt_owner hn) (by simp)
  | udp =>
    rw [Callback.process, processUdpPkt_owner_iff hn]
    simp only [true_and]
    rfl

/-- A network that takes UDP packets and refuses frames. -/
def Net.mixed : Net := ⟨fun p => (.ok, p), fun p => (.mem, p)⟩

theorem one_owner_raweth :
    Callback.raweth.OneOwner ⟨fullTable.svc, fun _ => ⟨true, none, 0, [], 0⟩, fullTable.hwaddr⟩
      ⟨⟨7, List.replicate 60 0, 60, 60, 0⟩, 46, 63⟩
      (Callback.raweth.process ⟨fullTable.svc, fun _ => ⟨true, none, 0, [], 0⟩, fullTable.hwaddr⟩ .mixed
        ⟨⟨7, List.replicate 60 0, 60, 60, 0⟩, 46, 63⟩) :=
  (one_owner_iff .raweth _ .mixed ⟨fun _ => ⟨rfl, rfl⟩, fun _ => ⟨rfl, rfl⟩⟩ _).mpr (by decide)

/-- A UDP packet for a connection that is closed: the buffer is freed and the ring is told to keep the element. -/
theorem udp_freed_and_kept :
    let s : Sender := ⟨{ fullTable.svc with conns := fun _ => none }, fun _ => ⟨true, none, 0, [], 0⟩, fullTable.hwaddr⟩
    let e : Elem := ⟨⟨7, [1, 2, 3], 3, 3, 0⟩, 3, 5⟩
    (Callback.udp.process s .mixed e).ret = false ∧ (Callback.udp.process s .mixed e).pbuf.freed = 1 ∧
      ¬ Callback.udp.OneOwner s e (Callback.udp.process s .mixed e) :=
  ⟨rfl, rfl, fun h => absurd h.1 (by decide)⟩

/-! ### Packets for the host -/

/-- A packet that lwIP delivers: the length of the first buffer of the chain, and of all. -/
structure Received where
  len : ℕ
  totLen : ℕ
  len_le : len ≤ totLen
  totLen_lt : totLen < 2 ^ 16

/-- What becomes of it: how much of it is attached to an element of an F2A ring, how often it is freed, what lwIP is
    told, and what `tcp_recved` is called with. -/
structure Outcome where
  attached : Option ℕ
  freed : ℕ
  ret : Err
  credited : ℕ
  deriving DecidableEq, Repr

/-- The callbacks of lwIP, with what they find. `attach` is whether the ring takes an element. -/
inductive Delivery where
  | tcp (loopback attach : Bool)
  /-- for the listener `l` with the handler `h`; `rsp` and `cfm` are for the control ring, `mem` for a new F2A ring -/
  | udp (s : Svc) (l : ℕ) (h : ListenHandler) (addr port : ℕ) (rsp cfm mem attach : Bool) (wide : ℕ)
  /-- `output` is what `nt_low_level_output` returns in the loopback test, `serverFrees` how often the performance test
      frees the frame -/
  | raweth (t : RawEth) (hdr : EthernetHeader) (netif : ℕ) (attach : Bool) (output : Err) (serverFrees : ℕ)

/-- `data_svc_tcp_recv` with data. The data loopback keeps the buffer to send it back. -/
def tcpRecv (loopback attach : Bool) (p : Received) : Outcome :=
  if loopback then ⟨none, 0, .ok, p.len⟩
  else if attach then ⟨some p.len, 0, .ok, p.len⟩ else ⟨none, 0, .mem, p.len⟩

namespace Svc

/-- The end of `data_svc_udp_recv_data_pkt`, for a connection that was found or created. -/
def udpDeliver (attach : Bool) (p : Received) : Option ConnHandler → Outcome
  | none => ⟨none, 0, .ok, 0⟩
  | some _ => if attach then ⟨some p.len, 0, .ok, 0⟩ else ⟨none, 1, .ok, 0⟩

/-- `data_svc_udp_recv_data_pkt` for the packet; it returns nothing, so for lwIP the packet is consumed. -/
def udpRecv (s : Svc) (l : ℕ) (h : ListenHandler) (addr port : ℕ) (rsp cfm mem attach : Bool) (wide : ℕ)
    (p : Received) :
    Option Outcome :=
  match s.findPeer h.bitmap addr port (List.range dataSvcMaxConn) with
  | .lost => some ⟨none, 0, .ok, 0⟩
  | .seen i => some (udpDeliver attach p (s.connFromId i))
  | .unknown =>
    if rsp then
      match s.createUdpConnection l h addr port mem wide with
      | none => none
      | some s' =>
        if cfm then some (udpDeliver attach p ((s.newConn).bind s'.connFromId)) else some ⟨none, 1, .ok, 0⟩
    else some ⟨none, 0, .ok, 0⟩

end Svc

/-- `data_svc_recv_raweth_data_pkt` for the frame. -/
def RawEth.recv (t : RawEth) (hdr : EthernetHeader) (netif : ℕ) (attach : Bool) (output : Err) (serverFrees : ℕ)
    (p : Received) : Option Outcome :=
  (t.recvRawethDataPkt hdr netif p.len attach output).map fun (err, attached) =>
    ⟨attached.map RawEth.Attached.len,
      if err = .ok ∧ attached = none then if t.loopback then 1 else serverFrees else 0, err, 0⟩

namespace Delivery

/-- A packet is delivered. No result when the device stops. -/
def run : Delivery → Received → Option Outcome
  | tcp loopback attach, p => some (tcpRecv loopback attach p)
  | udp s l h addr port rsp cfm mem attach wide, p => s.udpRecv l h addr port rsp cfm mem attach wide p
  | raweth t hdr netif attach output serverFrees, p => t.recv hdr netif attach output serverFrees p

/-- The bytes for the host in a packet. -/
def bytes : Delivery → Received → ℕ
  | raweth .., p => p.totLen - ethernetHeaderSize
  | _, p => p.totLen

/-- All of the packet is attached, or it is freed once, or lwIP gets it back; and the window of a TCP connection opens
    by what was attached. -/
def Whole (d : Delivery) (p : Received) (o : Outcome) : Prop :=
  ((o.attached = some (d.bytes p) ∧ o.freed = 0 ∧ o.ret = .ok) ∨ (o.attached = none ∧ o.freed = 1 ∧ o.ret = .ok) ∨
    (o.attached = none ∧ o.freed = 0 ∧ o.ret ≠ .ok)) ∧
  match d with
  | tcp .. => o.credited = o.attached.getD 0
  | _ => True

/-- When a packet is delivered whole or not at all.

    TCP: the loopback is off, and the ring takes a packet of one buffer, or refuses one whose first buffer is empty.
    UDP: the peer is known and its connection is there, or a new connection is made and reported; what the ring takes
    is of one buffer. Raw Ethernet: what the ring takes is of one buffer with a whole header, and the performance test
    frees a frame once. -/
def WholeWhen : Delivery → Received → Prop
  | tcp loopback attach, p => loopback = false ∧ if attach then p.len = p.totLen else p.len = 0
  | udp s l h addr port rsp cfm mem attach wide, p =>
    match s.findPeer h.bitmap addr port (List.range dataSvcMaxConn) with
    | .lost => False
    | .seen i => s.connFromId i ≠ none ∧ (attach = true → p.len = p.totLen)
    | .unknown => rsp = true ∧ (s.createUdpConnection l h addr port mem wide = none ∨ cfm = false ∨
        s.newConn ≠ none ∧ (attach = true → p.len = p.totLen))
  | raweth t hdr _ attach _ serverFrees, p =>
    t.loopback = false →
      ∀ i, t.getConnHandleFromEthType ⟨hdr.frameType, hdr.destinationAddress, hdr.sourceAddress⟩ = some (some i) →
        if t.perfTest then serverFrees = 1 else attach = true → ethernetHeaderSize ≤ p.len ∧ p.len = p.totLen

/-! ### The three callbacks -/

theorem tcp_whole_iff (loopback attach : Bool) (p : Received) :
    (tcp loopback attach).Whole p (tcpRecv loopback attach p) ↔ (tcp loopback attach).WholeWhen p := by
  cases loopback with
  | true => simp [Whole, WholeWhen, tcpRecv]
  | false =>
    cases attach with
    | true => simp [Whole, WholeWhen, tcpRecv, bytes]
    | false => simp [Whole, WholeWhen, tcpRecv]

/-- A packet that is passed on to a connection. -/
theorem deliver_whole_iff {s : Svc} {l addr port wide : ℕ} {h : ListenHandler} {rsp cfm mem attach : Bool}
    {p : Received}
    (c : Option ConnHandler) :
    (udp s l h addr port rsp cfm mem attach wide).Whole p (Svc.udpDeliver attach p c) ↔
      c ≠ none ∧ (attach = true → p.len = p.totLen) := by
  cases c with
  | none => simp [Whole, Svc.udpDeliver]
  | some c =>
    cases attach with
    | true => simp [Whole, Svc.udpDeliver, bytes]
    | false => simp [Whole, Svc.udpDeliver]

/-- The connection that was created is found under its id. -/
theorem connFromId_created {s s' : Svc} {l addr port wide : ℕ} {h : ListenHandler} {mem : Bool}
    (hs' : s.createUdpConnection l h addr port mem wide = some s') :
    (s.newConn).bind s'.connFromId ≠ none ↔ s.newConn ≠ none := by
  rw [Svc.createUdpConnection] at hs'
  cases hk : s.newConn with
  | none => simp
  | some k =>
    have hlt : k < dataSvcMaxConn := List.mem_range.mp (List.mem_of_find?_eq_some hk)
    simp only [hk] at hs'
    split at hs'
    · cases hs'
    · cases hs'
      simp [Svc.connFromId, hlt, Svc.setConn, Svc.setListen]

theorem udp_whole_iff (s : Svc) (l : ℕ) (h : ListenHandler) (addr port : ℕ) (rsp cfm mem attach : Bool) (wide : ℕ)
    (p : Received) :
    (∀ o, s.udpRecv l h addr port rsp cfm mem attach wide p = some o →
      (udp s l h addr port rsp cfm mem attach wide).Whole p o) ↔
    (udp s l h addr port rsp cfm mem attach wide).WholeWhen p := by
  have hlost : ¬ (udp s l h addr port rsp cfm mem attach wide).Whole p ⟨none, 0, .ok, 0⟩ := by simp [Whole]
  have hfreed : (udp s l h addr port rsp cfm mem attach wide).Whole p ⟨none, 1, .ok, 0⟩ := by simp [Whole]
  simp only [WholeWhen, Svc.udpRecv]
  cases s.findPeer h.bitmap addr port (List.range dataSvcMaxConn) with
  | lost => simpa using hlost
  | seen i => simpa using deliver_whole_iff (s.connFromId i)
  | unknown =>
    cases rsp with
    | false => simpa using hlost
    | true =>
      cases hs' : s.createUdpConnection l h addr port mem wide with
      | none => simp
      | some s' =>
        cases cfm with
        | false => simpa using hfreed
        | true =>
          simp only [if_true, Option.some.injEq, forall_eq', deliver_whole_iff, connFromId_created hs']
          simp

theorem raweth_whole_iff (t : RawEth) (hdr : EthernetHeader) (netif : ℕ) (attach : Bool) (output : Err)
    (serverFrees : ℕ)
    (p : Received) :
    (∀ o, t.recv hdr netif attach output serverFrees p = some o →
      (raweth t hdr netif attach output serverFrees).Whole p o) ↔
    (raweth t hdr netif attach output serverFrees).WholeWhen p := by
  simp only [WholeWhen, RawEth.recv, RawEth.recvRawethDataPkt]
  cases hloop : t.loopback with
  | true =>
    refine iff_of_true (fun o ho => ?_) (by rintro ⟨⟩)
    simp only [if_true, Option.map_eq_some_iff] at ho
    obtain ⟨r, hr, rfl⟩ := ho
    split at hr
    · cases hr
      simp [Whole]
    · cases hr
      by_cases hout : output = .ok
      · simp [Whole, hout]
      · simp [Whole, hout]
  | false =>
    simp only [Bool.false_eq_true, if_false, true_implies]
    cases t.getConnHandleFromEthType ⟨hdr.frameType, hdr.destinationAddress, hdr.sourceAddress⟩ with
    | none => simp
    | some r =>
      cases r with
      | none => simp [Whole]
      | some i =>
        cases t.perfTest with
        | true => simp [Whole]
        | false =>
          cases attach with
          | false => simp [Whole]
          | true =>
            have hle := p.len_le
            have hlt := p.totLen_lt
            have hwhole : (p.len + 2 ^ 16 - ethernetHeaderSize) % 2 ^ 16 = p.totLen - ethernetHeaderSize ↔
                ethernetHeaderSize ≤ p.len ∧ p.len = p.totLen := by
              rw [ethernetHeaderSize]
              omega
            simpa [Whole, bytes] using hwhole

/-- A received packet goes to the host whole or not at all exactly under the condition. -/
theorem received_whole_iff (d : Delivery) (p : Received) :
    (∀ o, d.run p = some o → d.Whole p o) ↔ d.WholeWhen p := by
  cases d with
  | tcp loopback attach =>
    rw [← tcp_whole_iff]
    simp [run]
  | udp s l h addr port rsp cfm mem attach wide => exact udp_whole_iff s l h addr port rsp cfm mem attach wide p
  | raweth t hdr netif attach output serverFrees =>
    exact raweth_whole_iff t hdr netif attach output serverFrees p

/-- Of a chain of two buffers only the first is attached; a segment that the ring refuses is credited; and a datagram
    from a new peer is lost when there is no control buffer. -/
theorem received_not_whole :
    ((tcp false true).run ⟨536, 1072, by decide, by decide⟩ = some ⟨some 536, 0, .ok, 536⟩ ∧
      ¬ (tcp false true).Whole ⟨536, 1072, by decide, by decide⟩ ⟨some 536, 0, .ok, 536⟩) ∧
    ((tcp false false).run ⟨536, 536, by decide, by decide⟩ = some ⟨none, 0, .mem, 536⟩ ∧
      ¬ (tcp false false).Whole ⟨536, 536, by decide, by decide⟩ ⟨none, 0, .mem, 536⟩) ∧
    ((udp { fullTable.svc with conns := fun _ => none } 0 ⟨.udp, 1, 1, 0⟩ 0xA 5000 false true true true 0).run
        ⟨100, 100, by decide, by decide⟩ = some ⟨none, 0, .ok, 0⟩ ∧
      ¬ (udp { fullTable.svc with conns := fun _ => none } 0 ⟨.udp, 1, 1, 0⟩ 0xA 5000 false true true true 0).Whole
        ⟨100, 100, by decide, by decide⟩ ⟨none, 0, .ok, 0⟩) := by
  refine ⟨⟨rfl, ?_⟩, ⟨rfl, ?_⟩, ⟨rfl, ?_⟩⟩
  all_goals simp [Whole, bytes]

end Delivery

end Qcc730.DataSvc
