import Qcc730.DataSvc.Requests
import Qcc730.Lib.Reach

/-! Closing connections and listeners.

    The ids of a request come from the host. The tables are shared by three protocols, and a UDP listener keeps
    the connections created from it in a bitmap. -/

namespace Qcc730.DataSvc

open Lib

/-- `DATA_SVC_INVALID_RING_ID` -/
def dataSvcInvalidRingId : ℕ := 0xff

/-- A ring that may not have been created. -/
def Rings.deleteIf (r : Rings) : Option ℕ → Option Rings
  | none => some r
  | some i => r.delete i

/-- The value of a ring id as the code has it. -/
def ringId (i : Option ℕ) : ℕ := i.getD dataSvcInvalidRingId

/-- `IS_BIT_SET` -/
def isBitSet (bit num : ℕ) : Bool := num.testBit bit

/-- `SET_BIT`, where the 1 that is shifted is an `int`: from bit 31 on C does not say what is set, and `wide` is
    what the compiler makes of it. -/
def setBit (bit num wide : ℕ) : ℕ := num ||| if bit < 31 then 1 <<< bit else wide

namespace Svc

variable (s : Svc)

/-- A request of the protocol `t` closes the connection `i`. -/
def closeConn (t : ConnType) (i : ℕ) (h : ConnHandler) : Svc :=
  { s.freeConn i with closed := (t, h) :: s.closed }

/-- The response to a request that got a control buffer. -/
def respond (cfm : Bool) (err : Err) : Ended := ⟨s, if cfm then some err else none, .bool cfm⟩

/-- `data_svc_tcp_connection_close_req`. `IP_DATA_SVC_LISTEN`, which the type is compared with, is a role; its
    value is that of `DATA_SVC_RAW_ETHER`. -/
def tcpConnectionCloseReq (rsp cfm : Bool) (connId : ℕ) : Option Ended :=
  if ¬ rsp then some ⟨s, none, .bool false⟩
  else
    match s.connFromId connId with
    | none => some (s.respond cfm .arg)
    | some h =>
      if h.type ≠ .rawEther then
        match s.a2f.deleteIf h.a2fRingId, s.f2a.deleteIf h.f2aRingId with
        | some a2f, some f2a =>
          some (({ h.pcb.elim s s.removePcb with a2f := a2f, f2a := f2a }.closeConn .tcp connId h).respond cfm .ok)
        | _, _ => none
      else some (s.respond cfm .arg)

/-- `data_svc_tcp_listen_close_req`. -/
def tcpListenCloseReq (rsp cfm : Bool) (listenId : ℕ) : Option Ended :=
  if ¬ rsp then some ⟨s, none, .bool false⟩
  else
    match s.listenFromId listenId with
    | none => some (s.respond cfm .arg)
    | some h =>
      if h.type = .tcp then some (((s.removePcb h.pcb).freeListen listenId).respond cfm .ok)
      else some (s.respond cfm .arg)

/-- `data_svc_tcp_closed_rsp`, which returns TRUE. -/
def tcpClosedRsp (connId : ℕ) : Option Svc :=
  match s.connFromId connId with
  | none => none
  | some h =>
    if h.type = .tcp then
      match s.a2f.delete (ringId h.a2fRingId), s.f2a.delete (ringId h.f2aRingId) with
      | some a2f, some f2a => some ({ s with a2f := a2f, f2a := f2a }.closeConn .tcp connId h)
      | _, _ => none
    else none

/-- The loop of `data_svc_udp_close_req` over the bits of a listener. -/
def closeBits (s : Svc) (bitmap : ℕ) : List ℕ → Option Svc
  | [] => some s
  | b :: bs =>
    if isBitSet b bitmap then
      match s.connFromId b with
      | none => none
      | some h =>
        match s.f2a.deleteShared .udp (ringId h.f2aRingId) with
        | none => none
        | some f2a => closeBits ({ s with f2a := f2a }.closeConn .udp b h) bitmap bs
    else closeBits s bitmap bs

/-- `data_svc_udp_close_req`: the listener is meant when the connection id is not one. -/
def udpCloseReq (rsp cfm : Bool) (connId listenId : ℕ) : Option Ended :=
  if ¬ rsp then some ⟨s, none, .bool false⟩
  else if connId < dataSvcMaxConn then
    match s.connFromId connId with
    | none => some (s.respond cfm .arg)
    | some h =>
      if h.type = .udp ∧ h.f2aRingId = none then
        match s.a2f.deleteShared .udp (ringId h.a2fRingId) with
        | none => none
        | some a2f => some (({ h.pcb.elim s s.removePcb with a2f := a2f }.closeConn .udp connId h).respond cfm .ok)
      else some (s.respond cfm .arg)
  else
    match s.listenFromId listenId with
    | none => some (s.respond cfm .arg)
    | some l =>
      if l.type = .udp then
        match s.closeBits l.bitmap (List.range dataSvcMaxConn) with
        | none => none
        | some s => some (((s.removePcb l.pcb).freeListen listenId).respond cfm .ok)
      else some (s.respond cfm .arg)

/-- `raweth_close_conn_req`. -/
def rawethCloseConnReq (rsp cfm : Bool) (connId : ℕ) : Option Ended :=
  if ¬ rsp then some ⟨s, none, .bool false⟩
  else
    match s.connFromId connId with
    | none => some (s.respond cfm .arg)
    | some h =>
      match s.a2f.deleteShared .rawEther (ringId h.a2fRingId), s.f2a.deleteShared .rawEther (ringId h.f2aRingId) with
      | some a2f, some f2a => some (({ s with a2f := a2f, f2a := f2a }.closeConn .rawEther connId h).respond cfm .ok)
      | _, _ => none

/-! ### Data for a UDP listener -/

/-- Where `data_svc_udp_recv_data_pkt` stops in its search for the peer. -/
inductive Peer where
  /-- a bit is set and its connection is not there -/
  | lost
  | seen (i : ℕ)
  | unknown
  deriving DecidableEq, Repr

/-- The search. -/
def findPeer (bitmap addr port : ℕ) : List ℕ → Peer
  | [] => .unknown
  | b :: bs =>
    if isBitSet b bitmap then
      match s.connFromId b with
      | none => .lost
      | some h => if h.remoteAddr = addr ∧ h.remotePort = port then .seen b else findPeer bitmap addr port bs
    else findPeer bitmap addr port bs

/-- `create_udp_connection` for the listener `l`: no change when the table is full. -/
def createUdpConnection (l : ℕ) (h : ListenHandler) (addr port : ℕ) (mem : Bool) (wide : ℕ) : Option Svc :=
  match s.newConn with
  | none => some s
  | some k =>
    match s.f2a.createShared .udp mem with
    | none => none
    | some (r, f2a) =>
      some { (s.setConn k
        { ConnHandler.zero with
          netifId := h.netifId, connected := true, type := .udp, f2aRingId := some r, a2fRingId := none,
          remoteAddr := addr, remotePort := port, listen := some l }).setListen l
        { h with bitmap := setBit k h.bitmap wide } with f2a := f2a }

/-- `data_svc_udp_recv_data_pkt` as far as the tables go: the packet itself goes to the ring, or is freed. -/
def udpRecvDataPkt (l : ℕ) (h : ListenHandler) (addr port : ℕ) (rsp mem : Bool) (wide : ℕ) : Option Svc :=
  match s.findPeer h.bitmap addr port (List.range dataSvcMaxConn) with
  | .unknown => if rsp then s.createUdpConnection l h addr port mem wide else some s
  | _ => some s

end Svc

/-! ### Events -/

/-- What the data service may be asked or told. -/
inductive Event where
  | request (r : Request)
  | tcpClose (rsp cfm : Bool) (connId : ℕ)
  | tcpListenClose (rsp cfm : Bool) (listenId : ℕ)
  | tcpClosed (connId : ℕ)
  | udpClose (rsp cfm : Bool) (connId listenId : ℕ)
  | rawClose (rsp cfm : Bool) (connId : ℕ)
  /-- data from a peer for the listener `l` -/
  | udpData (l addr port : ℕ) (rsp mem : Bool) (wide : ℕ)

namespace Event

/-- No result: the device stops, or there is no such connection or UDP listener for lwIP to call back for. -/
def run (s : Svc) : Event → Option Svc
  | .request r => (r.run s).map Ended.svc
  | .tcpClose rsp cfm c => (s.tcpConnectionCloseReq rsp cfm c).map Ended.svc
  | .tcpListenClose rsp cfm l => (s.tcpListenCloseReq rsp cfm l).map Ended.svc
  | .tcpClosed c => s.tcpClosedRsp c
  | .udpClose rsp cfm c l => (s.udpCloseReq rsp cfm c l).map Ended.svc
  | .rawClose rsp cfm c => (s.rawethCloseConnReq rsp cfm c).map Ended.svc
  | .udpData l addr port rsp mem wide =>
    match s.listens l with
    | none => none
    | some h => if h.type = .udp then s.udpRecvDataPkt l h addr port rsp mem wide else none

/-- The condition on an event: a connection that a TCP close names is one of TCP or raw Ethernet, one that a raw
    Ethernet close names is one of raw Ethernet, and a new UDP connection gets a bit below 31. -/
def Apt (s : Svc) : Event → Prop
  | .tcpClose rsp _ c => rsp = true → ∀ h, s.connFromId c = some h → h.type = .tcp ∨ h.type = .rawEther
  | .rawClose rsp _ c => rsp = true → ∀ h, s.connFromId c = some h → h.type = .rawEther
  | .udpData l addr port rsp _ _ => rsp = true → ∀ h, s.listens l = some h →
      s.findPeer h.bitmap addr port (List.range dataSvcMaxConn) = .unknown → ∀ k, s.newConn = some k → k < 31
  | _ => True

/-- An event that meets the condition. -/
def AptStep (s s' : Svc) : Prop := ∃ e : Event, e.Apt s ∧ e.run s = some s'

end Event

namespace Svc

variable {s s' : Svc}

theorem connFromId_eq {k : ℕ} {c : ConnHandler} (h : s.connFromId k = some c) : s.conns k = some c := by
  rw [connFromId] at h
  split at h
  · exact h
  · cases h

theorem listenFromId_eq {k : ℕ} {l : ListenHandler} (h : s.listenFromId k = some l) : s.listens k = some l := by
  rw [listenFromId] at h
  split at h
  · exact h
  · cases h

/-- Nothing is open. -/
def Fresh (s : Svc) : Prop := (∀ i, s.conns i = none) ∧ (∀ l, s.listens l = none) ∧ s.closed = []

/-- Every connection was closed by its own protocol, a listener that is found is one of the table, and the bitmap of
    a UDP listener has the connections created from it. -/
structure Own (s : Svc) : Prop where
  closed : ∀ p ∈ s.closed, p.2.type = p.1
  lookup : ∀ id, s.listenFromId id ≠ none → id < dataSvcMaxListen
  bitmap : ∀ l h, s.listens l = some h → h.type = .udp →
    ∀ i, isBitSet i h.bitmap = true ↔ ∃ c, s.conns i = some c ∧ c.type = .udp ∧ c.listen = some l

/-- The invariant. A connection that was created from a listener is a UDP connection with a ring to the host, and
    its listener is there. -/
structure Inv (s : Svc) : Prop where
  closed : ∀ p ∈ s.closed, p.2.type = p.1
  bit : ∀ l h, s.listens l = some h → h.type = .udp →
    ∀ i, isBitSet i h.bitmap = true ↔ ∃ c, s.conns i = some c ∧ c.listen = some l
  made : ∀ i c l, s.conns i = some c → c.listen = some l →
    c.type = .udp ∧ c.f2aRingId ≠ none ∧ ∃ h, s.listens l = some h ∧ h.type = .udp
  bound : ∀ i, s.conns i ≠ none → i < dataSvcMaxConn

namespace Inv

theorem own (h : s.Inv) : s.Own where
  closed := h.closed
  lookup id hid := by
    by_contra hge
    exact hid (if_neg hge)
  bitmap l hl hs ht i := by
    rw [h.bit l hl hs ht i]
    constructor
    · rintro ⟨c, hc, hcl⟩
      exact ⟨c, hc, (h.made i c l hc hcl).1, hcl⟩
    · rintro ⟨c, hc, -, hcl⟩
      exact ⟨c, hc, hcl⟩

theorem fresh (h : s.Fresh) : s.Inv where
  closed := by simp [h.2.2]
  bit l hl hs := by simp [h.2.1 l] at hs
  made i c l hc := by simp [h.1 i] at hc
  bound i hi := absurd (h.1 i) hi

/-- The tables decide. -/
theorem congr (h : s.Inv) (hc : s'.conns = s.conns) (hl : s'.listens = s.listens) (hd : s'.closed = s.closed) :
    s'.Inv where
  closed := hd ▸ h.closed
  bit := hc ▸ hl ▸ h.bit
  made := hc ▸ hl ▸ h.made
  bound := hc ▸ h.bound

/-- A new connection that was not created from a listener. -/
theorem setConn {k : ℕ} {c : ConnHandler} (h : s.Inv) (hk : s.newConn = some k) (hc : c.listen = none) :
    (s.setConn k c).Inv where
  closed := h.closed
  bit l hl hs ht i := by
    rw [h.bit l hl hs ht i]
    obtain rfl | hi := eq_or_ne i k
    · simp [Svc.setConn, newConn_free hk, hc]
    · simp [Svc.setConn, hi]
  made i d l hd hdl := by
    obtain rfl | hi := eq_or_ne i k
    · simp only [Svc.setConn, Function.update_self, Option.some.injEq] at hd
      rw [← hd, hc] at hdl
      cases hdl
    · exact h.made i d l (by simpa [Svc.setConn, hi] using hd) hdl
  bound i hi := by
    obtain rfl | hne := eq_or_ne i k
    · exact List.mem_range.mp (List.mem_of_find?_eq_some hk)
    · exact h.bound i (by simpa [Svc.setConn, hne] using hi)

/-- A handler that changes in what neither table nor bitmap depends on. -/
theorem changeConn {k : ℕ} {c d : ConnHandler} (h : s.Inv) (hk : s.conns k = some c) (ht : d.type = c.type)
    (hl : d.listen = c.listen) (hr : d.f2aRingId ≠ none) : (s.setConn k d).Inv where
  closed := h.closed
  bit l hl' hs ht' i := by
    rw [h.bit l hl' hs ht' i]
    obtain rfl | hi := eq_or_ne i k
    · simp [Svc.setConn, hk, hl]
    · simp [Svc.setConn, hi]
  made i e l he hel := by
    obtain rfl | hi := eq_or_ne i k
    · simp only [Svc.setConn, Function.update_self, Option.some.injEq] at he
      subst he
      obtain ⟨h1, -, h3⟩ := h.made i c l hk (hl ▸ hel)
      exact ⟨ht.trans h1, hr, h3⟩
    · exact h.made i e l (by simpa [Svc.setConn, hi] using he) hel
  bound i hi := by
    obtain rfl | hne := eq_or_ne i k
    · exact h.bound i (by simp [hk])
    · exact h.bound i (by simpa [Svc.setConn, hne] using hi)

/-- A new listener: no connection was created from it, since none is left of the one before. -/
theorem setListen {k : ℕ} {l : ListenHandler} (h : s.Inv) (hk : s.listens k = none) (hb : l.bitmap = 0) :
    (s.setListen k l).Inv where
  closed := h.closed
  bit m hm hs ht i := by
    obtain rfl | hne := eq_or_ne m k
    · simp only [Svc.setListen, Function.update_self, Option.some.injEq] at hs
      subst hs
      refine iff_of_false (by simp [isBitSet, hb]) ?_
      rintro ⟨c, hc, hcl⟩
      obtain ⟨-, -, h', hh, -⟩ := h.made i c m hc hcl
      rw [hk] at hh
      cases hh
    · exact h.bit m hm (by simpa [Svc.setListen, hne] using hs) ht i
  made i c m hc hcm := by
    obtain ⟨h1, h2, h', hh, ht⟩ := h.made i c m hc hcm
    have hne : m ≠ k := fun heq => by simp [← heq, hh] at hk
    exact ⟨h1, h2, h', by simpa [Svc.setListen, hne] using hh, ht⟩
  bound := h.bound

/-- A connection that was not created from a listener goes. -/
theorem freeConn {k : ℕ} {c : ConnHandler} (h : s.Inv) (hk : s.conns k = some c) (hc : c.listen = none) :
    (s.freeConn k).Inv where
  closed := h.closed
  bit l hl hs ht i := by
    rw [h.bit l hl hs ht i]
    obtain rfl | hi := eq_or_ne i k
    · simp [Svc.freeConn, hk, hc]
    · simp [Svc.freeConn, hi]
  made i d l hd := by
    obtain rfl | hi := eq_or_ne i k
    · simp [Svc.freeConn] at hd
    · exact h.made i d l (by simpa [Svc.freeConn, hi] using hd)
  bound i hi := by
    obtain rfl | hne := eq_or_ne i k
    · simp [Svc.freeConn] at hi
    · exact h.bound i (by simpa [Svc.freeConn, hne] using hi)

/-- It is closed by its own protocol. -/
theorem closeConn {k : ℕ} {c : ConnHandler} (h : s.Inv) (hk : s.conns k = some c) (hc : c.listen = none) :
    (s.closeConn c.type k c).Inv where
  closed p hp := by
    simp only [Svc.closeConn, List.mem_cons] at hp
    obtain rfl | hp := hp
    · rfl
    · exact h.closed p hp
  bit := (h.freeConn hk hc).bit
  made := (h.freeConn hk hc).made
  bound := (h.freeConn hk hc).bound

/-- A listener goes, and with it everything created from it. -/
theorem freeListen {k : ℕ} (h : s.Inv) (hk : ∀ i c, s.conns i = some c → c.listen ≠ some k) :
    (s.freeListen k).Inv where
  closed := h.closed
  bit m hm hs ht i := by
    obtain rfl | hne := eq_or_ne m k
    · simp [Svc.freeListen] at hs
    · exact h.bit m hm (by simpa [Svc.freeListen, hne] using hs) ht i
  made i c m hc hcm := by
    obtain ⟨h1, h2, h', hh, ht⟩ := h.made i c m hc hcm
    have hne : m ≠ k := fun heq => hk i c hc (heq ▸ hcm)
    exact ⟨h1, h2, h', by simpa [Svc.freeListen, hne] using hh, ht⟩
  bound := h.bound

theorem listen_none {k : ℕ} {c : ConnHandler} (h : s.Inv) (hk : s.conns k = some c)
    (hc : c.type ≠ .udp ∨ c.f2aRingId = none) : c.listen = none := by
  cases hl : c.listen with
  | none => rfl
  | some l =>
    obtain ⟨h1, h2, -⟩ := h.made k c l hk hl
    obtain hc | hc := hc
    · exact absurd h1 hc
    · exact absurd hc h2

/-! ### Requests that open -/

theorem removePcb (h : s.Inv) (p : ℕ) : (s.removePcb p).Inv := h.congr rfl rfl rfl

theorem addPcb (h : s.Inv) (p : ℕ) : (s.addPcb p).Inv := h.congr rfl rfl rfl

theorem removeIf (h : s.Inv) (p : Option ℕ) : (p.elim s s.removePcb).Inv := by
  cases p with
  | none => exact h
  | some p => exact h.removePcb p

theorem tcpClientConnectReq (h : s.Inv) (i : Input) : (s.tcpClientConnectReq i).svc.Inv := by
  rw [Svc.tcpClientConnectReq]
  split
  · exact h
  · have hgot : (s.tcpConnectGot i).1.Inv ∧ ∀ k, (s.tcpConnectGot i).2.2.1 = some k →
        ∃ c, (s.tcpConnectGot i).1.conns k = some c ∧ c.listen = none := by
      rw [Svc.tcpConnectGot]
      repeat' split
      all_goals refine ⟨?_, fun k hk => ?_⟩ <;> try cases hk
      · exact h
      · exact h
      · exact h.addPcb _
      · exact h.addPcb _
      · exact (h.addPcb _).setConn ‹_› rfl
      · exact ⟨_, Function.update_self .., rfl⟩
    generalize s.tcpConnectGot i = got at hgot ⊢
    obtain ⟨s', pcb, k, err⟩ := got
    obtain ⟨hinv, hk⟩ := hgot
    simp only
    split_ifs
    · cases k with
      | none => exact hinv.removeIf pcb
      | some k =>
        obtain ⟨c, hc, hcl⟩ := hk k rfl
        refine (hinv.removeIf pcb).freeConn (c := c) ?_ hcl
        cases pcb <;> exact hc
    · exact hinv
    · exact hinv

theorem tcpListenStartReq (h : s.Inv) (i : Input) : (s.tcpListenStartReq i).svc.Inv := by
  rw [Svc.tcpListenStartReq]
  split
  · exact h
  · have hgot : (s.tcpListenGot i).1.Inv := by
      rw [Svc.tcpListenGot]
      repeat' split
      all_goals try exact h
      all_goals try exact h.addPcb _
      exact (h.addPcb _).setListen (newListen_free ‹_›) rfl
    generalize s.tcpListenGot i = got at hgot ⊢
    obtain ⟨s', pcb, err⟩ := got
    simp only
    split_ifs
    · exact hgot.removeIf pcb
    · exact hgot
    · exact hgot

theorem udpServerStartReq (h : s.Inv) (i : Input) : (s.udpServerStartReq i).svc.Inv := by
  rw [Svc.udpServerStartReq]
  split
  · exact h
  · have hgot : (s.udpServerGot i).1.Inv := by
      rw [Svc.udpServerGot]
      repeat' split
      all_goals try exact h
      all_goals try exact h.addPcb _
      exact (h.addPcb _).setListen (newListen_free ‹_›) rfl
    generalize s.udpServerGot i = got at hgot ⊢
    obtain ⟨s', pcb, err⟩ := got
    simp only
    split_ifs
    · exact hgot.removeIf pcb
    · exact hgot

theorem udpClientStartReq {e : Ended} {i : Input} (h : s.Inv) (he : s.udpClientStartReq i = some e) : e.svc.Inv := by
  rw [Svc.udpClientStartReq] at he
  split at he
  · cases he
    exact h
  · have hgot : ∀ g, s.udpClientGot i = some g → g.1.Inv := by
      rw [Svc.udpClientGot]
      repeat' split
      all_goals intro g hg; cases hg
      all_goals try exact h
      all_goals try exact h.addPcb _
      exact ((h.addPcb _).setConn ‹_› rfl).congr rfl rfl rfl
    generalize s.udpClientGot i = got at hgot he
    cases got with
    | none => cases he
    | some g =>
      cases he
      have hinv := hgot g rfl
      simp only
      split_ifs
      · exact hinv.removeIf _
      · exact hinv

theorem rawethStartConnReq {e : Ended} {i : Input} {mac : Bool} {ethType destMac : ℕ} (h : s.Inv)
    (he : s.rawethStartConnReq i mac ethType destMac = some e) : e.svc.Inv := by
  rw [Svc.rawethStartConnReq] at he
  simp only at he
  repeat' split at he
  all_goals cases he
  all_goals try exact h
  all_goals exact (h.setConn ‹_› rfl).congr rfl rfl rfl

theorem tcpAcceptClient (h : s.Inv) (l : ListenHandler) (p : ℕ) (err : Err) (i : Input) :
    (s.tcpAcceptClient l p err i).svc.Inv := by
  rw [Svc.tcpAcceptClient]
  simp only
  repeat' split
  all_goals try exact h
  all_goals exact (h.setConn ‹_› rfl).congr rfl rfl rfl

theorem tcpClientConnectCallback {k : ℕ} {c : ConnHandler} (h : s.Inv) (hk : s.conns k = some c) (i : Input) :
    (s.tcpClientConnectCallback k c i).svc.Inv := by
  rw [Svc.tcpClientConnectCallback]
  split
  · exact h
  · split
    · exact h
    · split
      · exact h.congr rfl rfl rfl
      · refine (h.changeConn hk ?_ ?_ ?_).congr rfl rfl rfl
        all_goals simp

theorem request {r : Request} {e : Ended} (h : s.Inv) (he : r.run s = some e) : e.svc.Inv := by
  cases r with
  | tcpConnect i =>
    cases he
    exact h.tcpClientConnectReq i
  | tcpListen i =>
    cases he
    exact h.tcpListenStartReq i
  | udpListen i =>
    cases he
    exact h.udpServerStartReq i
  | udpConnect i => exact h.udpClientStartReq he
  | rawOpen i mac ethType destMac => exact h.rawethStartConnReq he
  | accepted l p err i =>
    rw [Request.run] at he
    split at he
    · cases he
    · cases he
      exact h.tcpAcceptClient _ p err i
  | connected k i =>
    rw [Request.run] at he
    split at he
    · cases he
    · rename_i c hc
      cases he
      exact h.tcpClientConnectCallback hc i

/-! ### Requests that close -/

theorem tcpConnectionCloseReq {rsp cfm : Bool} {k : ℕ} {e : Ended} (h : s.Inv)
    (ha : (Event.tcpClose rsp cfm k).Apt s) (he : s.tcpConnectionCloseReq rsp cfm k = some e) : e.svc.Inv := by
  rw [Svc.tcpConnectionCloseReq] at he
  split at he
  · cases he
    exact h
  · rename_i hrsp
    split at he
    · cases he
      exact h
    · rename_i c hc
      split at he
      · rename_i htype
        split at he
        · rename_i a2f f2a _ _
          cases he
          have ht : c.type = .tcp := (ha (not_not.mp hrsp) c hc).resolve_right htype
          have hk : s.conns k = some c := connFromId_eq hc
          have hl : c.listen = none := h.listen_none hk (.inl (by simp [ht]))
          have hinv : ({ c.pcb.elim s s.removePcb with a2f := a2f, f2a := f2a } : Svc).Inv :=
            (h.removeIf c.pcb).congr rfl rfl rfl
          have := hinv.closeConn (k := k) (c := c) (by cases c.pcb <;> exact hk) hl
          rwa [ht] at this
        · cases he
      · cases he
        exact h

theorem tcpListenCloseReq {rsp cfm : Bool} {k : ℕ} {e : Ended} (h : s.Inv)
    (he : s.tcpListenCloseReq rsp cfm k = some e) : e.svc.Inv := by
  rw [Svc.tcpListenCloseReq] at he
  repeat' split at he
  all_goals cases he
  · exact h
  · exact h
  · rename_i l hl ht
    refine (h.removePcb l.pcb).freeListen fun i c hc hcl => ?_
    obtain ⟨-, -, l', hl', ht'⟩ := h.made i c k hc hcl
    rw [listenFromId_eq hl, Option.some.injEq] at hl'
    rw [← hl', ht] at ht'
    cases ht'
  · exact h

theorem tcpClosedRsp {k : ℕ} (h : s.Inv) (he : s.tcpClosedRsp k = some s') : s'.Inv := by
  rw [Svc.tcpClosedRsp] at he
  repeat' split at he
  all_goals cases he
  rename_i c hc ht _ _ a2f f2a _ _
  have hk := connFromId_eq hc
  have hinv : ({ s with a2f := a2f, f2a := f2a } : Svc).Inv := h.congr rfl rfl rfl
  have := hinv.closeConn (k := k) (c := c) hk (h.listen_none hk (.inl (by simp [ht])))
  rwa [ht] at this

theorem rawethCloseConnReq {rsp cfm : Bool} {k : ℕ} {e : Ended} (h : s.Inv)
    (ha : (Event.rawClose rsp cfm k).Apt s) (he : s.rawethCloseConnReq rsp cfm k = some e) : e.svc.Inv := by
  rw [Svc.rawethCloseConnReq] at he
  repeat' split at he
  all_goals cases he
  · exact h
  · exact h
  · rename_i hrsp _ c hc _ _ a2f f2a _ _
    have hk := connFromId_eq hc
    have ht : c.type = .rawEther := ha (not_not.mp hrsp) c hc
    have hinv : ({ s with a2f := a2f, f2a := f2a } : Svc).Inv := h.congr rfl rfl rfl
    have := hinv.closeConn (k := k) (c := c) hk (h.listen_none hk (.inl (by simp [ht])))
    rwa [ht] at this

/-- The loop over the bits closes the connections they stand for, and no other. -/
theorem closeBits_eq {bitmap : ℕ} {bs : List ℕ} (hn : bs.Nodup) (he : s.closeBits bitmap bs = some s') :
    s'.listens = s.listens ∧
    (∀ i, s'.conns i = if i ∈ bs ∧ isBitSet i bitmap = true then none else s.conns i) ∧
    ∀ p ∈ s'.closed, p ∈ s.closed ∨ p.1 = .udp ∧ ∃ i, isBitSet i bitmap = true ∧ s.conns i = some p.2 := by
  induction bs generalizing s with
  | nil =>
    cases he
    exact ⟨rfl, fun i => by simp, fun p hp => .inl hp⟩
  | cons b bs ih =>
    obtain ⟨hb, hn⟩ := List.nodup_cons.mp hn
    rw [closeBits] at he
    split at he
    · rename_i hbit
      split at he
      · cases he
      · rename_i c hc
        split at he
        · cases he
        · rename_i f2a _
          obtain ⟨h1, h2, h3⟩ := ih hn he
          refine ⟨h1, fun i => ?_, fun p hp => ?_⟩
          · rw [h2 i]
            obtain rfl | hi := eq_or_ne i b
            · simp [hb, hbit, Svc.closeConn, Svc.freeConn]
            · simp [hi, Svc.closeConn, Svc.freeConn]
          · obtain hp | ⟨hp, i, hi, hci⟩ := h3 p hp
            · simp only [Svc.closeConn, List.mem_cons] at hp
              obtain rfl | hp := hp
              · exact .inr ⟨rfl, b, hbit, connFromId_eq hc⟩
              · exact .inl hp
            · refine .inr ⟨hp, i, hi, ?_⟩
              obtain rfl | hne := eq_or_ne i b
              · simp [Svc.closeConn, Svc.freeConn] at hci
              · simpa [Svc.closeConn, Svc.freeConn, hne] using hci
    · rename_i hbit
      obtain ⟨h1, h2, h3⟩ := ih hn he
      refine ⟨h1, fun i => ?_, h3⟩
      rw [h2 i]
      obtain rfl | hi := eq_or_ne i b
      · simp [hbit]
      · simp [hi]

/-- A UDP listener is closed with all its connections. -/
theorem closeListen {k : ℕ} {l : ListenHandler} (h : s.Inv) (hk : s.listens k = some l) (ht : l.type = .udp)
    (he : s.closeBits l.bitmap (List.range dataSvcMaxConn) = some s') :
    ((s'.removePcb l.pcb).freeListen k).Inv := by
  obtain ⟨h1, h2, h3⟩ := closeBits_eq List.nodup_range he
  have hbit := h.bit k l hk ht
  -- a connection that is left was there before, and is not from this listener
  have hleft : ∀ i c, s'.conns i = some c → s.conns i = some c ∧ c.listen ≠ some k := by
    intro i c hc
    rw [h2 i] at hc
    split at hc
    · cases hc
    · rename_i hni
      refine ⟨hc, fun hcl => hni ⟨?_, (hbit i).mpr ⟨c, hc, hcl⟩⟩⟩
      exact List.mem_range.mpr (h.bound i (by simp [hc]))
  have hkeep : ∀ i c m, m ≠ k → (s'.conns i = some c ∧ c.listen = some m ↔ s.conns i = some c ∧ c.listen = some m) := by
    intro i c m hm
    refine ⟨fun ⟨hc, hcm⟩ => ⟨(hleft i c hc).1, hcm⟩, fun ⟨hc, hcm⟩ => ⟨?_, hcm⟩⟩
    rw [h2 i, if_neg, hc]
    rintro ⟨-, hi⟩
    obtain ⟨d, hd, hdk⟩ := (hbit i).mp hi
    rw [hc, Option.some.injEq] at hd
    rw [← hd, hcm, Option.some.injEq] at hdk
    exact hm hdk
  exact {
    closed := fun p hp => by
      obtain hp | ⟨hp, i, hi, hc⟩ := h3 p hp
      · exact h.closed p hp
      · obtain ⟨d, hd, hdk⟩ := (hbit i).mp hi
        rw [hc, Option.some.injEq] at hd
        rw [hp, hd]
        exact (h.made i d k (hd ▸ hc) hdk).1
    bit := fun m hm hs hmt i => by
      have hne : m ≠ k := fun heq => by simp [Svc.freeListen, heq] at hs
      rw [h.bit m hm (by simpa [Svc.freeListen, Svc.removePcb, hne, h1] using hs) hmt i]
      exact exists_congr fun c => (hkeep i c m hne).symm
    made := fun i c m hc hcm => by
      obtain ⟨hc, hck⟩ := hleft i c hc
      have hne : m ≠ k := fun heq => hck (heq ▸ hcm)
      obtain ⟨h4, h5, l', hl', ht'⟩ := h.made i c m hc hcm
      exact ⟨h4, h5, l', by simpa [Svc.freeListen, Svc.removePcb, hne, h1] using hl', ht'⟩
    bound := fun i hi => by
      obtain ⟨c, hc⟩ := Option.ne_none_iff_exists'.mp hi
      exact h.bound i (by simp [(hleft i c hc).1]) }

theorem udpCloseReq {rsp cfm : Bool} {k l : ℕ} {e : Ended} (h : s.Inv) (he : s.udpCloseReq rsp cfm k l = some e) :
    e.svc.Inv := by
  rw [Svc.udpCloseReq] at he
  repeat' split at he
  all_goals cases he
  · exact h
  · exact h
  · rename_i c hc ht _ a2f _
    have hk := connFromId_eq hc
    have hinv : ({ c.pcb.elim s s.removePcb with a2f := a2f } : Svc).Inv := (h.removeIf c.pcb).congr rfl rfl rfl
    have := hinv.closeConn (k := k) (c := c) (by cases c.pcb <;> exact hk) (h.listen_none hk (.inr ht.2))
    rwa [ht.1] at this
  · exact h
  · exact h
  · rename_i hl ht _ _ hs
    exact h.closeListen (listenFromId_eq hl) ht hs
  · exact h

/-! ### Data from a new peer -/

theorem isBitSet_setBit {i k num wide : ℕ} (hk : k < 31) :
    isBitSet i (setBit k num wide) = true ↔ i = k ∨ isBitSet i num = true := by
  rw [isBitSet, setBit, if_pos hk, Nat.testBit_or, Nat.one_shiftLeft, Nat.testBit_two_pow,
    Bool.or_eq_true, decide_eq_true_iff, or_comm, @eq_comm _ k i, isBitSet]

theorem createUdpConnection {l addr port wide : ℕ} {hl : ListenHandler} {mem : Bool} (h : s.Inv)
    (hs : s.listens l = some hl) (ht : hl.type = .udp) (hk : ∀ k, s.newConn = some k → k < 31)
    (he : s.createUdpConnection l hl addr port mem wide = some s') : s'.Inv := by
  rw [Svc.createUdpConnection] at he
  repeat' split at he
  all_goals cases he
  · exact h
  · rename_i k hnew _ r f2a _
    have hfree := newConn_free hnew
    have hkeep : ∀ m, (∃ h', s.listens m = some h' ∧ h'.type = .udp) →
        ∃ h', Function.update s.listens l (some { hl with bitmap := setBit k hl.bitmap wide }) m = some h' ∧
          h'.type = .udp := by
      rintro m ⟨h', hh, hht⟩
      obtain rfl | hne := eq_or_ne m l
      · exact ⟨_, Function.update_self .., ht⟩
      · exact ⟨h', by rw [Function.update_of_ne hne, hh], hht⟩
    exact {
      closed := h.closed
      bit := fun m hm hms hmt i => by
        obtain rfl | hne := eq_or_ne m l
        · simp only [Svc.setListen, Function.update_self, Option.some.injEq] at hms
          subst hms
          rw [isBitSet_setBit (hk k hnew), h.bit m hl hs ht i]
          obtain rfl | hi := eq_or_ne i k
          · simp [Svc.setConn, Svc.setListen]
          · simp [Svc.setConn, Svc.setListen, hi]
        · rw [h.bit m hm (by simpa [Svc.setListen, Svc.setConn, hne] using hms) hmt i]
          obtain rfl | hi := eq_or_ne i k
          · simp [Svc.setConn, Svc.setListen, hfree, hne.symm]
          · simp [Svc.setConn, Svc.setListen, hi]
      made := fun i c m hc hcm => by
        obtain rfl | hi := eq_or_ne i k
        · simp only [Svc.setListen, Svc.setConn, Function.update_self, Option.some.injEq] at hc
          subst hc
          cases hcm
          exact ⟨rfl, by simp, hkeep l ⟨hl, hs, ht⟩⟩
        · obtain ⟨h1, h2, h3⟩ := h.made i c m (by simpa [Svc.setListen, Svc.setConn, hi] using hc) hcm
          exact ⟨h1, h2, hkeep m h3⟩
      bound := fun i hi => by
        obtain rfl | hne := eq_or_ne i k
        · exact List.mem_range.mp (List.mem_of_find?_eq_some hnew)
        · exact h.bound i (by simpa [Svc.setListen, Svc.setConn, hne] using hi) }

/-- An event that meets the condition keeps the invariant. -/
theorem step (h : s.Inv) (hs : Event.AptStep s s') : s'.Inv := by
  obtain ⟨e, ha, he⟩ := hs
  cases e with
  | request r =>
    obtain ⟨e, hrun, rfl⟩ := Option.map_eq_some_iff.mp he
    exact h.request hrun
  | tcpClose rsp cfm k =>
    obtain ⟨e, hrun, rfl⟩ := Option.map_eq_some_iff.mp he
    exact h.tcpConnectionCloseReq ha hrun
  | tcpListenClose rsp cfm l =>
    obtain ⟨e, hrun, rfl⟩ := Option.map_eq_some_iff.mp he
    exact h.tcpListenCloseReq hrun
  | tcpClosed k => exact h.tcpClosedRsp he
  | udpClose rsp cfm k l =>
    obtain ⟨e, hrun, rfl⟩ := Option.map_eq_some_iff.mp he
    exact h.udpCloseReq hrun
  | rawClose rsp cfm k =>
    obtain ⟨e, hrun, rfl⟩ := Option.map_eq_some_iff.mp he
    exact h.rawethCloseConnReq ha hrun
  | udpData l addr port rsp mem wide =>
    rw [Event.run] at he
    split at he
    · cases he
    · rename_i hl hs
      split at he
      · rename_i ht
        rw [udpRecvDataPkt] at he
        split at he
        · rename_i hpeer
          split at he
          · rename_i hrsp
            exact h.createUdpConnection hs ht (ha hrsp hl hs hpeer) he
          · cases he
            exact h
        · cases he
          exact h
      · cases he

end Inv

end Svc

/-- In every run of requests and callbacks that meet the condition connections are closed by their own protocol,
    listeners are found in their table, and the bitmaps are right. -/
theorem closed_by_own_protocol {s₀ s : Svc} (h₀ : s₀.Fresh) (h : Reach Event.AptStep s₀ s) : s.Own :=
  (Reach.inv h (Svc.Inv.fresh h₀) fun _ _ hs hi => hi.step hs).own

/-- A UDP listener hears from a peer and is closed: the condition is met. -/
theorem closed_by_own_protocol_udp :
    ∃ s₁ s₂ s₃, Event.run .init (.request (.udpListen .fine)) = some s₁ ∧
      Event.run s₁ (.udpData 0 5 9 true true 0) = some s₂ ∧ Event.run s₂ (.udpClose true true 64 0) = some s₃ ∧
      s₂.Own ∧ s₃.Own := by
  have h₁ : Reach Event.AptStep .init _ := .one ⟨.request (.udpListen .fine), trivial, rfl⟩
  have h₂ : Reach Event.AptStep .init _ := h₁.tail ⟨.udpData 0 5 9 true true 0, ?_, rfl⟩
  · have h₃ : Reach Event.AptStep .init _ := h₂.tail ⟨.udpClose true true 64 0, trivial, rfl⟩
    have h₀ : Svc.init.Fresh := ⟨fun _ => rfl, fun _ => rfl, rfl⟩
    exact ⟨_, _, _, rfl, rfl, rfl, closed_by_own_protocol h₀ h₂, closed_by_own_protocol h₀ h₃⟩
  · intro _ _ _ _ k hk
    cases hk
    decide

/-- A raw Ethernet close frees a TCP connection, and a TCP close a UDP connection. A TCP close of a connection that
    was created from a UDP listener leaves its bit behind. -/
theorem closed_by_other_protocol :
    (∃ s s', Event.run .init (.request (.tcpConnect .fine)) = some s ∧
      Event.run s (.rawClose true true 0) = some s' ∧ s'.conns 0 = none ∧ ¬ s'.Own) ∧
    (∃ s s', Event.run .init (.request (.udpConnect .fine)) = some s ∧
      Event.run s (.tcpClose true true 0) = some s' ∧ s'.conns 0 = none ∧ ¬ s'.Own) ∧
    ∃ s₁ s₂ s₃, Event.run .init (.request (.udpListen .fine)) = some s₁ ∧
      Event.run s₁ (.udpData 0 5 9 true true 0) = some s₂ ∧ Event.run s₂ (.tcpClose true true 0) = some s₃ ∧
      (s₃.listens 0).map (fun h => isBitSet 0 h.bitmap) = some true ∧ s₃.conns 0 = none := by
  refine ⟨⟨_, _, rfl, rfl, rfl, fun h => ?_⟩, ⟨_, _, rfl, rfl, rfl, fun h => ?_⟩, _, _, _, rfl, rfl, rfl, rfl, rfl⟩
  · exact absurd (h.closed _ (.head _)) (by decide)
  · exact absurd (h.closed _ (.head _)) (by decide)

end Qcc730.DataSvc
