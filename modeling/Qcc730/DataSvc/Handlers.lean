import Mathlib.Tactic

/-! The tables of the data service.

    A connection has a handler in `g_conn_list`, a lwIP control block and rings; a listener has a handler in
    `g_listen_list` and a control block. TCP connections have rings of their own, UDP and raw Ethernet connections
    share one for each direction, counted by its users. Which calls fail is up to lwIP and the memory. Where the
    code asserts, the device stops: a function then has no result. -/

namespace Qcc730.DataSvc

def dataSvcMaxConn : ℕ := 64
def dataSvcMaxListen : ℕ := 64

/-- `data_svc_conn_type_t`. -/
inductive ConnType where
  | udp
  | tcp
  | rawEther
  | hfc
  deriving DecidableEq, Repr

/-- `err_t`, with the codes this code makes and those of lwIP. -/
inductive Err where
  | ok
  | mem
  | conn
  | arg
  | lwip (code : ℕ)
  deriving DecidableEq, Repr

/-! ### Rings -/

/-- The rings of one direction: those in use, and the ids and reference counts of the shared ones. -/
structure Rings where
  maxNum : ℕ
  used : ℕ → Bool
  id : ConnType → Option ℕ
  num : ConnType → ℕ

namespace Rings

/-- `ringif_create_a2f_ring`, `ringif_create_f2a_ring`: the first ring that is free; `mem` says whether there is
    memory for its elements. -/
def create (r : Rings) (mem : Bool) : Option (ℕ × Rings) :=
  match (List.range r.maxNum).find? fun i => !r.used i with
  | none => none
  | some i => if mem then some (i, { r with used := Function.update r.used i true }) else none

/-- `ringif_a2f_delete_ring`, `ringif_f2a_delete_ring`: no result when the ring is not in use. -/
def delete (r : Rings) (i : ℕ) : Option Rings :=
  if i < r.maxNum ∧ r.used i then some { r with used := Function.update r.used i false } else none

/-- `ringif_create_*_udp_ring`, `ringif_create_*_raweth_ring`. The first user creates the ring, and the device
    stops if that fails. -/
def createShared (r : Rings) (t : ConnType) (mem : Bool) : Option (ℕ × Rings) :=
  match r.id t with
  | some i => some (i, { r with num := Function.update r.num t (r.num t + 1) })
  | none =>
    match r.create mem with
    | none => none
    | some (i, r) =>
      some (i, { r with id := Function.update r.id t (some i), num := Function.update r.num t (r.num t + 1) })

/-- `ringif_delete_*_udp_ring`, `ringif_delete_*_raweth_ring`: the last user deletes the ring. No result when the
    function returns FALSE. -/
def deleteShared (r : Rings) (t : ConnType) (i : ℕ) : Option Rings :=
  if r.num t = 0 then some r
  else if r.num t = 1 then
    match r.delete i with
    | none => none
    | some r => some { r with id := Function.update r.id t none, num := Function.update r.num t 0 }
  else some { r with num := Function.update r.num t (r.num t - 1) }

end Rings

/-! ### Handlers -/

/-- `conn_handler_t`. A ring id is `none` for `DATA_SVC_INVALID_RING_ID`. No code reads `listen`: the listener
    that a UDP connection was created from. -/
structure ConnHandler where
  type : ConnType
  pcb : Option ℕ
  connected : Bool
  netifId : ℕ
  a2fRingId : Option ℕ
  f2aRingId : Option ℕ
  remoteAddr : ℕ
  remotePort : ℕ
  ethType : ℕ
  destMac : ℕ
  listen : Option ℕ
  deriving DecidableEq, Repr

/-- What `memset` makes of a new one. Its type is `DATA_SVC_UDP` and its rings are number 0. -/
def ConnHandler.zero : ConnHandler := ⟨.udp, none, false, 0, some 0, some 0, 0, 0, 0, 0, none⟩

/-- `listen_handler_t`. -/
structure ListenHandler where
  type : ConnType
  pcb : ℕ
  netifId : ℕ
  bitmap : ℕ
  deriving DecidableEq, Repr

/-- The data service. -/
structure Svc where
  /-- `g_conn_list` -/
  conns : ℕ → Option ConnHandler
  /-- `g_listen_list` -/
  listens : ℕ → Option ListenHandler
  /-- the control blocks that are live -/
  pcbs : ℕ → Bool
  a2f : Rings
  f2a : Rings
  /-- something was released that was not held -/
  twice : Bool
  /-- the connections that were closed, and the protocol of the request -/
  closed : List (ConnType × ConnHandler)

namespace Svc

/-- `data_svc_get_new_conn_handler`: the first free entry. -/
def newConn (s : Svc) : Option ℕ := (List.range dataSvcMaxConn).find? fun i => (s.conns i).isNone

/-- `data_svc_get_new_listen_handler`. -/
def newListen (s : Svc) : Option ℕ := (List.range dataSvcMaxListen).find? fun i => (s.listens i).isNone

/-- `data_svc_get_conn_handler_from_id`. -/
def connFromId (s : Svc) (id : ℕ) : Option ConnHandler := if id < dataSvcMaxConn then s.conns id else none

/-- `data_svc_get_listen_handler_from_id`, which compares with the size of the other table. -/
def listenFromId (s : Svc) (id : ℕ) : Option ListenHandler := if id < dataSvcMaxConn then s.listens id else none

def setConn (s : Svc) (i : ℕ) (h : ConnHandler) : Svc := { s with conns := Function.update s.conns i (some h) }

def setListen (s : Svc) (i : ℕ) (h : ListenHandler) : Svc := { s with listens := Function.update s.listens i (some h) }

/-- `data_svc_free_conn_handler`. -/
def freeConn (s : Svc) (i : ℕ) : Svc := { s with conns := Function.update s.conns i none }

/-- `data_svc_free_listen_handler`. -/
def freeListen (s : Svc) (i : ℕ) : Svc := { s with listens := Function.update s.listens i none }

/-- lwIP makes a control block. -/
def addPcb (s : Svc) (p : ℕ) : Svc := { s with pcbs := Function.update s.pcbs p true }

/-- `tcp_close` or `tcp_abort`, or `udp_remove`. -/
def removePcb (s : Svc) (p : ℕ) : Svc :=
  { s with pcbs := Function.update s.pcbs p false, twice := s.twice || !s.pcbs p }

end Svc

/-- What a request returns. -/
inductive Ret where
  | bool (b : Bool)
  | err (e : Err)
  deriving DecidableEq, Repr

/-- How a request ends: the error code of its response, if one was sent, and what it returns. -/
structure Ended where
  svc : Svc
  rsp : Option Err
  ret : Ret

/-- An error code in the response, FALSE, or another code than `ERR_OK`. -/
def Ended.Failed (e : Ended) : Prop := (e.rsp ≠ none ∧ e.rsp ≠ some .ok) ∨ (e.ret ≠ .bool true ∧ e.ret ≠ .err .ok)

instance (e : Ended) : Decidable e.Failed := inferInstanceAs (Decidable ((_ ∧ _) ∨ (_ ∧ _)))

/-! ### Requests -/

/-- What a request finds: whether there is a control buffer (`rsp`), the interface is ready, the control block
    lwIP makes, what its calls return, whether there is memory for rings, and whether the response is sent. -/
structure Input where
  rsp : Bool
  netif : Bool
  netifId : ℕ
  pcb : Option ℕ
  bind : Err
  connect : Err
  listenPcb : Option ℕ
  a2fMem : Bool
  f2aMem : Bool
  cfm : Bool
  deriving DecidableEq, Repr

namespace Svc

/-- What `data_svc_tcp_client_connect_req` has got when it sends its response: the control block, the handler, and
    the error code. -/
def tcpConnectGot (s : Svc) (i : Input) : Svc × Option ℕ × Option ℕ × Err :=
  if ¬ i.netif then (s, none, none, .conn)
  else
    match i.pcb with
    | none => (s, none, none, .mem)
    | some p =>
      if i.bind ≠ .ok then (s.addPcb p, some p, none, i.bind)
      else
        match s.newConn with
        | none => (s.addPcb p, some p, none, .mem)
        | some k =>
          ((s.addPcb p).setConn k
            { ConnHandler.zero with type := .tcp, netifId := i.netifId, pcb := some p, a2fRingId := none, f2aRingId := none },
            some p, some k, i.connect)

/-- `data_svc_tcp_client_connect_req`. A response that cannot be sent returns before the clean-up; `return ERR_MEM` is
    TRUE there, where a `bool` is returned. -/
def tcpClientConnectReq (s : Svc) (i : Input) : Ended :=
  if ¬ i.rsp then ⟨s, none, .bool false⟩
  else
    match s.tcpConnectGot i with
    | (s, pcb, k, err) =>
      if ¬ i.cfm then ⟨s, none, .bool true⟩
      else if err ≠ .ok then
        ⟨k.elim (pcb.elim s s.removePcb) (pcb.elim s s.removePcb).freeConn, some err, .bool true⟩
      else ⟨s, some err, .bool true⟩

/-- What `data_svc_tcp_listen_start_req` has got: the listening control block, if there is one, and the error code.
    `tcp_listen_with_backlog` replaces the first control block when it succeeds. -/
def tcpListenGot (s : Svc) (i : Input) : Svc × Option ℕ × Err :=
  if ¬ i.netif then (s, none, .conn)
  else
    match i.pcb with
    | none => (s, none, .mem)
    | some p =>
      if i.bind ≠ .ok then (s.addPcb p, none, i.bind)
      else
        match i.listenPcb with
        | none => (s.addPcb p, none, .mem)
        | some l =>
          match s.newListen with
          | none => (s.addPcb l, some l, .mem)
          | some k => ((s.addPcb l).setListen k ⟨.tcp, l, i.netifId, 0⟩, some l, .ok)

/-- `data_svc_tcp_listen_start_req`. The clean-up is for the listening control block only. -/
def tcpListenStartReq (s : Svc) (i : Input) : Ended :=
  if ¬ i.rsp then ⟨s, none, .bool false⟩
  else
    match s.tcpListenGot i with
    | (s, pcb, err) =>
      if ¬ i.cfm then ⟨s, none, .bool false⟩
      else if err ≠ .ok then ⟨pcb.elim s s.removePcb, some err, .bool true⟩
      else ⟨s, some err, .bool true⟩

/-- What `data_svc_udp_server_start_req` has got. -/
def udpServerGot (s : Svc) (i : Input) : Svc × Option ℕ × Err :=
  if ¬ i.netif then (s, none, .conn)
  else
    match i.pcb with
    | none => (s, none, .mem)
    | some p =>
      if i.bind ≠ .ok then (s.addPcb p, some p, i.bind)
      else
        match s.newListen with
        | none => (s.addPcb p, some p, .mem)
        | some k => ((s.addPcb p).setListen k ⟨.udp, p, i.netifId, 0⟩, some p, .ok)

/-- `data_svc_udp_server_start_req`. -/
def udpServerStartReq (s : Svc) (i : Input) : Ended :=
  if ¬ i.rsp then ⟨s, none, .bool false⟩
  else
    match s.udpServerGot i with
    | (s, pcb, err) =>
      ⟨if err ≠ .ok then pcb.elim s s.removePcb else s, if i.cfm then some err else none, .bool i.cfm⟩

/-- What `data_svc_udp_client_start_req` has got. -/
def udpClientGot (s : Svc) (i : Input) : Option (Svc × Option ℕ × Err) :=
  if ¬ i.netif then some (s, none, .conn)
  else
    match i.pcb with
    | none => some (s, none, .mem)
    | some p =>
      if i.bind ≠ .ok then some (s.addPcb p, some p, i.bind)
      else if i.connect ≠ .ok then some (s.addPcb p, some p, i.connect)
      else
        match s.newConn with
        | none => some (s.addPcb p, some p, .mem)
        | some k =>
          match s.a2f.createShared .udp i.a2fMem with
          | none => none
          | some (r, a2f) =>
            some ({ (s.addPcb p).setConn k
              { ConnHandler.zero with
                netifId := i.netifId, pcb := some p, a2fRingId := some r, f2aRingId := none, connected := true } with
              a2f := a2f }, some p, .ok)

/-- `data_svc_udp_client_start_req`. -/
def udpClientStartReq (s : Svc) (i : Input) : Option Ended :=
  if ¬ i.rsp then some ⟨s, none, .bool false⟩
  else
    match s.udpClientGot i with
    | none => none
    | some (s, pcb, err) =>
      some ⟨if err ≠ .ok then pcb.elim s s.removePcb else s, if i.cfm then some err else none, .bool i.cfm⟩

/-- `raweth_existing_conn_chk`. -/
def rawethExistingConnChk (s : Svc) (netifId ethType destMac : ℕ) : Bool :=
  (List.range dataSvcMaxConn).any fun i =>
    match s.connFromId i with
    | none => false
    | some h => h.type = .rawEther ∧ h.netifId = netifId ∧ h.ethType = ethType ∧ h.destMac = destMac

/-- `raweth_start_conn_req`; `mac` is what `raweth_valid_mac_id_chk` returns. Once it has a handler, it fails only
    where the creation of a ring stops the device. -/
def rawethStartConnReq (s : Svc) (i : Input) (mac : Bool) (ethType destMac : ℕ) : Option Ended :=
  if ¬ i.rsp then some ⟨s, none, .bool false⟩
  else
    let refused := fun err => some ⟨s, if i.cfm then some err else none, .bool i.cfm⟩
    if ¬ i.netif then refused .conn
    else if ¬ mac then refused .conn
    else if s.rawethExistingConnChk i.netifId ethType destMac then refused .conn
    else
      match s.newConn with
      | none => refused .mem
      | some k =>
        match s.a2f.createShared .rawEther i.a2fMem, s.f2a.createShared .rawEther i.f2aMem with
        | some (ra, a2f), some (rf, f2a) =>
          some ⟨{ s.setConn k
            { ConnHandler.zero with
              netifId := i.netifId, type := .rawEther, ethType := ethType, destMac := destMac, a2fRingId := some ra,
              f2aRingId := some rf } with
            a2f := a2f, f2a := f2a }, if i.cfm then some .ok else none, .bool i.cfm⟩
        | _, _ => none

/-- `tcp_accept_client` for the listener `l`; `p` is the control block of the new connection and `err` the argument.
    A ring that cannot be created leaves the handler as it is. Where the response cannot be sent, `return FALSE` is
    `ERR_OK`, as an `err_t` is returned. -/
def tcpAcceptClient (s : Svc) (l : ListenHandler) (p : ℕ) (err : Err) (i : Input) : Ended :=
  if ¬ i.rsp then ⟨s, none, .err .mem⟩
  else
    let send := fun (s : Svc) err => (⟨s, if i.cfm then some err else none, .err .ok⟩ : Ended)
    if err ≠ .ok then send s err
    else
      match s.newConn with
      | none => send s .mem
      | some k =>
        match s.f2a.create i.f2aMem with
        | none => ⟨s.setConn k .zero, none, .err .mem⟩
        | some (rf, f2a) =>
          match s.a2f.create i.a2fMem with
          | none => ⟨{ s.setConn k .zero with f2a := (f2a.delete rf).getD f2a }, none, .err .mem⟩
          | some (ra, a2f) =>
            send { s.setConn k
              { ConnHandler.zero with
                type := .tcp, netifId := l.netifId, pcb := some p, a2fRingId := some ra, f2aRingId := some rf,
                connected := true } with
              a2f := a2f, f2a := f2a } .ok

/-- `data_svc_tcp_client_connect_callback` for the connection `k`. -/
def tcpClientConnectCallback (s : Svc) (k : ℕ) (h : ConnHandler) (i : Input) : Ended :=
  if ¬ i.rsp then ⟨s, none, .err .mem⟩
  else
    match s.a2f.create i.a2fMem with
    | none => ⟨s, none, .err .mem⟩
    | some (ra, a2f) =>
      match s.f2a.create i.f2aMem with
      | none => ⟨{ s with a2f := (a2f.delete ra).getD a2f }, none, .err .mem⟩
      | some (rf, f2a) =>
        ⟨{ s.setConn k { h with a2fRingId := some ra, f2aRingId := some rf, connected := true } with
          a2f := a2f, f2a := f2a }, if i.cfm then some .ok else none, if i.cfm then .err .ok else .err .mem⟩

end Svc

end Qcc730.DataSvc
