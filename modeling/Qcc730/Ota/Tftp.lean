import Qcc730.Lib.Bytes
import Qcc730.Lib.Circular
import Qcc730.Lib.Reach

/-! The TFTP plugin of the over-the-air download (`ota_tftp.c`).

    A task receives the blocks of a file from the server, stores them in a ring of four payloads and
    acknowledges them; the caller of `plugin_tftp_recv_data` takes the bytes out of the ring. The two share the
    ring, under a mutex, and without one the status and the error code of the session; they wake each other by
    the bits of one signal. The machine here interleaves them, one access to what is shared at a time, with a
    server that keeps to the lock step of RFC 1350 and a network that loses, repeats, delays and reorders. -/

namespace Qcc730.Ota.Tftp

open Qcc730.Lib

def tftpPayloadSize : ℕ := 512
def tftpHeaderSize : ℕ := 4
def tftpMaxRetryCount : ℕ := 3
def tftpRcvBufSize : ℕ := 2048

/-- `tftp_ota_status_t`. -/
inductive OtaStatus where
  | notStarted
  | running
  | runningWaitingForStop
  | stop
  deriving DecidableEq, Repr

/-- The `TFTP_ST_*` states that the parser sets. -/
inductive TftpState where
  | rrq
  | data
  | error
  | oack
  deriving DecidableEq, Repr

/-- The error codes of the session (`QAPI_FW_UPGRADE_ERR_TFTP_*`). -/
inductive TftpErr where
  | serverRespTimeout
  | connectFail
  | imageDownloadFail
  | imageNotFound
  | socketConnect
  deriving DecidableEq, Repr

/-- `tftp_session_info_t`. The ring stands for `rcv_buffer`, `read_pointer`, `write_pointer` and
    `receive_data`; an `error_code` of 0 is `none`. -/
structure Session where
  status : OtaStatus
  errorCode : Option TftpErr
  tftpState : TftpState
  pktSeq : ℕ
  pktSeqLast : ℕ
  ring : Circular UInt8
  retryCount : ℕ

def Session.receiveData (s : Session) : ℕ := s.ring.used

/-- The bits of the session's signal. -/
structure Signals where
  bufReady : Bool
  dataReady : Bool
  error : Bool
  finish : Bool
  deriving DecidableEq, Repr

/-- A packet sent by the task: the acknowledgement carries a 16-bit number. -/
inductive Packet where
  | rrq
  | ack (blockSeq : ℕ)
  | error
  deriving DecidableEq, Repr

/-- A 16-bit number in network order. -/
def ntohs (pkt : Bytes) (o : ℕ) : ℕ := 256 * (pkt.getD o 0).toNat + (pkt.getD (o + 1) 0).toNat

/-- `ota_tftp_pkt_parse`. -/
def otaTftpPktParse (pkt : Bytes) (pktSeq : ℕ) (pktState : TftpState) : ℕ × TftpState :=
  if pkt.length < 2 then (pktSeq, pktState)
  else
    match ntohs pkt 0 with
    | 6 => (pktSeq, .oack)
    | 3 =>
      if pkt.length < 4 then (pktSeq, pktState)
      else (ntohs pkt 2, if pktState = .rrq ∨ pktState = .oack then .data else pktState)
    | 5 => (pktSeq, .error)
    | _ => (pktSeq, pktState)

/-! ### The receive task -/

/-- Where `ota_tftp_recv` stands. -/
inductive Pc where
  /-- at the test of the loop -/
  | loop
  /-- waiting for the reader to make room -/
  | waitBuf
  | select
  /-- a block is stored and acknowledged; `short` is the last one -/
  | signal (short : Bool)
  /-- the last block is announced -/
  | finishing
  /-- the status is `STOP` and the error code is about to be written -/
  | failing (e : TftpErr)
  | exit
  | done
  deriving DecidableEq, Repr

/-- What a pass through the loop leaves. -/
structure Outcome where
  sess : Session
  sent : Option Packet
  next : Pc

/-- `ota_tftp_timeout`. -/
def otaTftpTimeout (s : Session) : Outcome :=
  if s.status ≠ .running then ⟨s, none, .loop⟩
  else
    match s.tftpState with
    | .rrq =>
      if s.retryCount < tftpMaxRetryCount then ⟨{ s with retryCount := s.retryCount + 1 }, some .rrq, .loop⟩
      else ⟨{ s with status := .stop }, none, .failing .serverRespTimeout⟩
    | .data =>
      if s.retryCount < tftpMaxRetryCount then
        ⟨{ s with retryCount := s.retryCount + 1 }, some (.ack (s.pktSeq % 65536)), .loop⟩
      else ⟨{ s with status := .stop }, none, .failing .serverRespTimeout⟩
    | _ => ⟨s, none, .loop⟩

/-- The time-out, where `TFTP_TIMEOUT` has passed since the last packet was sent. -/
def timeoutIf (late : Bool) (s : Session) : Outcome := if late then otaTftpTimeout s else ⟨s, none, .loop⟩

/-- A datagram that `recvfrom` returns: `addrMatch` tells whether its sender has the server's address, `connected`
    whether `connect` succeeds. -/
def receive (s : Session) (pkt : Bytes) (addrMatch connected late : Bool) : Outcome :=
  if s.tftpState = .rrq ∧ addrMatch = false then timeoutIf late s
  else
    let s := { s with retryCount := 0 }
    if pkt.length > tftpPayloadSize + tftpHeaderSize then
      ⟨{ s with status := .stop }, some .error, .failing .imageDownloadFail⟩
    else
      let stateBefore := s.tftpState
      let parsed := otaTftpPktParse pkt s.pktSeq s.tftpState
      let s := { s with pktSeq := parsed.1, tftpState := parsed.2 }
      if s.tftpState = .error then
        ⟨{ s with status := .stop }, none,
          .failing (if pkt.getD 4 0 = 1 then .imageNotFound else .imageDownloadFail)⟩
      else if s.tftpState ≠ .data then timeoutIf late s
      else if stateBefore = .rrq ∧ connected = false then
        ⟨{ s with status := .stop }, none, .failing .socketConnect⟩
      else if s.pktSeq > s.pktSeqLast then
        if s.pktSeq = 0 then ⟨{ s with status := .stop }, some .error, .failing .imageDownloadFail⟩
        else
          ⟨{ s with pktSeqLast := s.pktSeq, ring := s.ring.write tftpRcvBufSize (pkt.drop tftpHeaderSize) },
            some (.ack (s.pktSeq % 65536)), .signal (decide (pkt.length < tftpPayloadSize + tftpHeaderSize))⟩
      else if s.pktSeq = s.pktSeqLast then
        if s.status = .runningWaitingForStop then ⟨s, none, .loop⟩
        else ⟨s, some (.ack (s.pktSeq % 65536)), .loop⟩
      else timeoutIf late s

/-- `select` returns without a datagram. -/
def quiet (s : Session) (late : Bool) : Outcome :=
  if late then
    if s.status = .runningWaitingForStop then ⟨{ s with status := .stop }, none, .loop⟩ else otaTftpTimeout s
  else ⟨s, none, .loop⟩

/-! ### The file and its blocks -/

/-- The bytes of block `i` of the file, counted from 1. -/
def block (file : Bytes) (i : ℕ) : Bytes := (file.drop (tftpPayloadSize * (i - 1))).take tftpPayloadSize

/-- The number of blocks: the last one is shorter than a payload. -/
def lastBlock (file : Bytes) : ℕ := file.length / tftpPayloadSize + 1

/-- The DATA packet of block `i`, with its 16-bit number. -/
def dataPkt (file : Bytes) (i : ℕ) : Bytes :=
  [0, 3, UInt8.ofNat (i % 65536 / 256), UInt8.ofNat (i % 256)] ++ block file i

/-! ### The machine -/

/-- Where `plugin_tftp_init` and the calls of `plugin_tftp_recv_data` that follow it stand. -/
inductive Reader where
  /-- `plugin_tftp_init` waits for the first data -/
  | init
  /-- it failed, and the session is gone -/
  | closed
  | idle
  /-- the error code was 0 -/
  | checked (bufLen : ℕ)
  | waiting (bufLen : ℕ)
  /-- woken by `DATA_READY` -/
  | copying (bufLen : ℕ)
  /-- the mutex is given back; `more`: data is left in the ring -/
  | copied (out : Bytes) (more : Bool)
  deriving DecidableEq, Repr

/-- An acknowledgement: its number, the block it is sent for and the blocks stored by then. -/
structure Ack where
  number : ℕ
  block : ℕ
  stored : List ℕ
  deriving DecidableEq, Repr

/-- The plugin and its server. `current` is the block the server sends (0 before the request reaches it);
    `parsed`, `stored`, `acks`, `returned` and `zeros` record the run: the block of the last DATA packet parsed,
    the blocks stored, the acknowledgements sent, the bytes returned, and what had been returned at each return
    of `QAPI_OK` with size 0. -/
structure Machine where
  sess : Session
  sig : Signals
  pc : Pc
  reader : Reader
  current : ℕ
  parsed : ℕ
  stored : List ℕ
  acks : List Ack
  returned : Bytes
  zeros : List Bytes

/-- After `plugin_tftp_init` has started the task. -/
def Machine.init : Machine where
  sess := ⟨.running, none, .rrq, 0, 0, ⟨fun _ => 0, 0, 0, 0⟩, 0⟩
  sig := ⟨false, false, false, false⟩
  pc := .loop
  reader := .init
  current := 0
  parsed := 0
  stored := []
  acks := []
  returned := []
  zeros := []

namespace Machine

variable (m : Machine)

/-- The machine after a pass of the task in which `parsed` is the block of the last DATA packet. -/
def afterPass (parsed : ℕ) (o : Outcome) : Machine :=
  let stored := match o.next with
    | .signal _ => m.stored ++ [parsed]
    | _ => m.stored
  let acks := match o.sent with
    | some (.ack n) => m.acks ++ [⟨n, parsed, stored⟩]
    | _ => m.acks
  { m with sess := o.sess, pc := o.next, parsed := parsed, stored := stored, acks := acks }

/-- The steps of the task other than those at `select`. -/
def taskStep : Machine :=
  match m.pc with
  | .loop =>
    if m.sess.status = .running ∨ m.sess.status = .runningWaitingForStop then
      if m.sess.receiveData + tftpPayloadSize > tftpRcvBufSize then { m with pc := .waitBuf }
      else { m with pc := .select }
    else { m with pc := .exit }
  | .waitBuf => if m.sig.bufReady then { m with pc := .select, sig := { m.sig with bufReady := false } } else m
  | .signal short =>
    { m with pc := if short then .finishing else .loop, sig := { m.sig with dataReady := true } }
  | .finishing => { m with pc := .loop, sess := { m.sess with status := .runningWaitingForStop } }
  | .failing e => { m with pc := .loop, sess := { m.sess with errorCode := some e } }
  | .exit =>
    if m.sess.errorCode ≠ none then { m with pc := .done, sig := { m.sig with error := true } }
    else { m with pc := .done, sig := { m.sig with finish := true } }
  | .select => m
  | .done => m

/-- `QAPI_OK` with the bytes `out`. -/
def giveBack (out : Bytes) : Machine :=
  { m with
    reader := .idle
    returned := m.returned ++ out
    zeros := if out = [] then m.zeros ++ [m.returned] else m.zeros }

/-- One of `DATA_READY`, `ERROR` and `FINISH` is set. -/
def woken : Prop := m.sig.dataReady = true ∨ m.sig.error = true ∨ m.sig.finish = true

instance : Decidable m.woken := inferInstanceAs (Decidable (_ ∨ _ ∨ _))

/-- The steps of the reader, a call of `plugin_tftp_recv_data` being at `checked` after it began. -/
def readerStep : Machine :=
  match m.reader with
  | .init => if m.woken then { m with reader := if m.sig.error then .closed else .idle } else m
  | .checked bufLen => if m.sess.status = .running then { m with reader := .waiting bufLen } else m.giveBack []
  | .waiting bufLen =>
    if m.woken then
      let sig := { m.sig with dataReady := false, error := false, finish := false }
      if m.sig.dataReady then { m with reader := .copying bufLen, sig := sig }
      else { m with sig := sig }.giveBack []
    else m
  | .copying bufLen =>
    let r := m.sess.ring.read tftpRcvBufSize (min bufLen m.sess.receiveData)
    { m with sess := { m.sess with ring := r.2 }, reader := .copied r.1 (decide (r.2.used > 0)) }
  | .copied out more =>
    { m with sig := { m.sig with bufReady := true, dataReady := m.sig.dataReady || more } }.giveBack out
  | .closed => m
  | .idle => m

/-- What can happen next. Every datagram the server has sent may arrive, at any time and any number of times, and
    so may every acknowledgement. -/
inductive Act where
  | task
  | reader
  /-- a call with a buffer of `bufLen` bytes -/
  | call (bufLen : ℕ)
  | selectFailed
  | recvFailed
  | recvEmpty
  | quiet (late : Bool)
  /-- block `i` arrives -/
  | data (i : ℕ) (connected late : Bool)
  /-- an ERROR packet of the server arrives -/
  | refusal (rest : Bytes) (connected late : Bool)
  /-- a datagram from another address arrives, before the socket is connected -/
  | stranger (pkt : Bytes) (late : Bool)
  /-- the request reaches the server -/
  | request
  /-- an acknowledgement reaches the server -/
  | ack (number : ℕ)
  deriving DecidableEq, Repr

/-- The pass of the task that an action at `select` makes, with the block parsed. -/
def pass (file : Bytes) : Act → Option (ℕ × Outcome)
  | .selectFailed => some (m.parsed, ⟨{ m.sess with status := .stop }, none, .failing .connectFail⟩)
  | .recvFailed => some (m.parsed, ⟨{ m.sess with status := .stop }, none, .failing .connectFail⟩)
  | .recvEmpty => some (m.parsed, ⟨{ m.sess with status := .stop }, none, .exit⟩)
  | .quiet late => some (m.parsed, Tftp.quiet m.sess late)
  | .data i connected late =>
    if 1 ≤ i ∧ i ≤ m.current then some (i, receive m.sess (dataPkt file i) true connected late) else none
  | .refusal rest connected late => some (m.parsed, receive m.sess ([0, 5] ++ rest) true connected late)
  | .stranger pkt late =>
    if m.sess.tftpState = .rrq then some (m.parsed, receive m.sess pkt false true late) else none
  | _ => none

/-- One action; one that is not possible leaves everything as it is. -/
def step (file : Bytes) (a : Act) : Machine :=
  match a with
  | .task => m.taskStep
  | .reader => m.readerStep
  | .call bufLen =>
    -- a `bufLen` of 0 is `INVALID_PARAM`
    if m.reader = .idle ∧ 0 < bufLen ∧ m.sess.status ≠ .notStarted ∧ m.sess.errorCode = none then
      { m with reader := .checked bufLen }
    else m
  | .request => if m.current = 0 then { m with current := 1 } else m
  | .ack number =>
    if (∃ x ∈ m.acks, x.number = number) ∧ number = m.current % 65536 ∧ 0 < m.current ∧
        m.current < lastBlock file then
      { m with current := m.current + 1 }
    else m
  | _ =>
    if m.pc = .select then
      match m.pass file a with
      | some (parsed, o) => m.afterPass parsed o
      | none => m
    else m

/-- The machine after the actions `as`. -/
def run (file : Bytes) (m : Machine) (as : List Act) : Machine := as.foldl (fun m a => m.step file a) m

/-! ### What the download promises -/

/-- The bytes returned are a prefix of the file, the ring holds no more than it has room for, a block is
    acknowledged only when it and those before it are stored, and `QAPI_OK` with size 0 was returned only when the
    whole file had been. -/
structure Exact (file : Bytes) (m : Machine) : Prop where
  returned : m.returned <+: file
  receiveData : m.sess.receiveData ≤ tftpRcvBufSize
  acks : ∀ x ∈ m.acks, ∀ j, 1 ≤ j → j ≤ x.block → j ∈ x.stored
  zeros : ∀ z ∈ m.zeros, z = file

end Machine

end Qcc730.Ota.Tftp
