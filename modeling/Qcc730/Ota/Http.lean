import Qcc730.Lib.Bytes
import Qcc730.Lib.Reach

/-! The HTTP plugin of the over-the-air download (`ota_http.c`).

    The HTTP client library hands the pieces of a response to `http_client_cb_ota`, which gathers them in a buffer
    of `OTA_CHUNK_SIZE` bytes and queues the buffer: at every piece in plain mode, at the end of the response in
    range mode. `plugin_http_recv_data` takes one queued buffer at a time; in plain mode it requests the body once,
    in range mode it requests the next `OTA_CHUNK_SIZE` bytes at every call and once more after a time-out. Nothing
    guards the queue: a callback may come at any point of a call, and a call go on at any point of a callback. -/

namespace Qcc730.Ota.Http

open Qcc730.Lib

def otaChunkSize : ℕ := 1024

/-- What the rear pointer of the queue refers to: nothing, the last node reached from the front (the last but one, once
    the callback has linked another to it), or a node that is not reached from the front, since the reader has taken it
    out already or the callback has yet to put it there. -/
inductive Rear where
  | null
  | last
  | stale
  deriving DecidableEq, Repr

/-- `HTTP_Queue_t`: the buffers of the nodes from `front` on, and `rear`. -/
structure Queue where
  front : List Bytes
  rear : Rear
  deriving DecidableEq, Repr

/-- The fields of `http_session_info_t` that the download uses. `temp` holds the first `http_recv_temp_buf_offset`
    bytes of `http_recv_temp_buf` and is `none` once that is freed; `range` is the flag
    `QAPI_FW_UPGRADE_FLAG_RANGE_HEADER`. `status` is `RUNNING` and `error_code` 0 from `plugin_http_init` on. -/
structure Session where
  gettingStarted : Bool
  retryCount : ℕ
  totalLen : ℕ
  queue : Queue
  recvCount : ℕ
  respCode : ℕ
  rangeOffset : ℕ
  range : Bool
  temp : Option Bytes
  deriving DecidableEq, Repr

/-- `http_recv_temp_buf_offset`. -/
def Session.tempOffset (s : Session) : ℕ := (s.temp.getD []).length

/-! ### The callback -/

/-- Where the callback stands with a new node: it has tested `rear`, which was `NULL` or not, or it has made the first
    of its two stores as well. -/
inductive Callback where
  | idle
  | tested (node : Bytes) (null : Bool)
  | stored (node : Bytes) (null : Bool)
  deriving DecidableEq, Repr

/-- The gathered bytes in a new node, and the test of `rear`; `nodeOk` and `bufOk` tell whether the two allocations
    succeed. -/
def flush (s : Session) (nodeOk bufOk : Bool) : Session × Callback :=
  let s := { s with recvCount := 0 }
  if nodeOk = false then (s, .idle)
  else if bufOk = false then (s, .idle)
  else (s, .tested (s.temp.getD []) (decide (s.queue.rear = .null)))

/-- `http_client_cb_ota` with a piece of a response other than 404, to its test of `rear`; `finished` is the state
    `RX_FINISHED`. -/
def httpClientCbOta (s : Session) (piece : Bytes) (finished nodeOk bufOk : Bool) : Session × Callback :=
  let flushed := fun s : Session => if finished = true ∨ s.range = false then flush s nodeOk bufOk else (s, .idle)
  if piece ≠ [] then
    match s.temp with
    | none => (s, .idle)
    | some b =>
      let b := if s.recvCount = 0 then [] else b
      if b.length + piece.length > otaChunkSize then ({ s with temp := none }, .idle)
      else flushed { s with temp := some (b ++ piece), recvCount := (s.recvCount + 1) % 65536 }
  else flushed s

/-- The callback's next store: `rear` and then `front` if `rear` was `NULL`, else the `next` of the node `rear` refers
    to and then `rear`. -/
def Callback.store (q : Queue) : Callback → Queue × Callback
  | .idle => (q, .idle)
  | .tested node true => (⟨q.front, .stale⟩, .stored node true)
  -- a node that is no longer reached from the front does not lead to the new one
  | .tested node false => (⟨if q.rear = .last then q.front ++ [node] else q.front, q.rear⟩, .stored node false)
  | .stored node true => (⟨[node], if q.rear = .null then .null else .last⟩, .idle)
  -- by now the reader may have taken the new node too
  | .stored _ false => (⟨q.front, if q.front = [] then .stale else .last⟩, .idle)

/-- The bytes of its node, until that is reached from the front. -/
def Callback.inHand : Callback → Bytes
  | .tested node _ => node
  | .stored node true => node
  | _ => []

@[simp] theorem Callback.inHand_idle : Callback.idle.inHand = [] := rfl

/-! ### The machine -/

/-- A request for `len` bytes of the body from `offset` on. -/
structure Request where
  offset : ℕ
  len : ℕ
  deriving DecidableEq, Repr

/-- The bytes it asks for. -/
def Request.slice (body : Bytes) (r : Request) : Bytes := (body.drop r.offset).take r.len

/-- Where `plugin_http_recv_data` stands. -/
inductive Reader where
  | idle
  /-- in the loop that waits for the queue -/
  | waiting (bufLen : ℕ)
  /-- the front node is copied and taken out; `rear` is not yet looked at -/
  | unlinked (out : Bytes)
  deriving DecidableEq, Repr

/-- It is taking a node out. -/
def Reader.Taking : Reader → Prop
  | .unlinked _ => True
  | _ => False

instance : (r : Reader) → Decidable r.Taking
  | .idle => inferInstanceAs (Decidable False)
  | .waiting _ => inferInstanceAs (Decidable False)
  | .unlinked _ => inferInstanceAs (Decidable True)

/-- The bytes taken from the queue and not yet returned. -/
def Reader.inHand : Reader → Bytes
  | .unlinked out => out
  | _ => []

/-- The plugin, its requests and the response under way with the bytes still to be handed over. `returned` are the
    bytes returned with `QAPI_OK`, `zeros` what had been returned at each `QAPI_OK` with size 0. -/
structure Machine where
  sess : Session
  reader : Reader
  callback : Callback
  pending : List Request
  inFlight : Option (Request × Bytes)
  returned : Bytes
  zeros : List Bytes
  deriving DecidableEq, Repr

namespace Machine

variable (m : Machine)

/-- After `plugin_http_init`. The caller passes the length of the body, of which the session keeps 32 bits. -/
def init (range : Bool) (body : Bytes) : Machine where
  sess := ⟨false, 0, u32 body.length, ⟨[], .null⟩, 0, 0, 0, range, some []⟩
  reader := .idle
  callback := .idle
  pending := []
  inFlight := none
  returned := []
  zeros := []

/-- `ota_httpc_get_with_offset`, the request being sent. -/
def getWithOffset (maxLen : ℕ) : Machine :=
  let remain := m.sess.totalLen - m.sess.rangeOffset
  let expectedLen := if remain < maxLen then remain else maxLen
  { m with pending := m.pending ++ [⟨m.sess.rangeOffset, expectedLen⟩] }

/-- `plugin_http_recv_data` to its loop; `sent` tells whether the request can be sent. -/
def call (body : Bytes) (bufLen : ℕ) (sent : Bool) : Machine :=
  if m.sess.range then
    if m.sess.rangeOffset ≥ m.sess.totalLen then { m with zeros := m.zeros ++ [m.returned] }
    else if sent then { m.getWithOffset otaChunkSize with reader := .waiting bufLen }
    else m
  else if m.sess.gettingStarted = false then
    if sent then
      { m with
        pending := m.pending ++ [⟨0, body.length⟩]
        sess := { m.sess with gettingStarted := true }
        reader := .waiting bufLen }
    else m
  else { m with reader := .waiting bufLen }

/-- A pass through the loop with an empty queue: `expired` tells whether the time-out has passed. -/
def poll (expired sent : Bool) : Machine :=
  if expired then
    if m.sess.range then
      let retried := m.sess.retryCount + 1
      if retried = 1 then
        let m := { m with sess := { m.sess with retryCount := retried } }
        if sent then
          let m := m.getWithOffset
            (if m.sess.totalLen - m.sess.rangeOffset < otaChunkSize then m.sess.totalLen - m.sess.rangeOffset
              else otaChunkSize)
          if m.sess.respCode = 404 then { m with reader := .idle } else m
        else { m with reader := .idle }
      else { m with sess := { m.sess with retryCount := 0 }, reader := .idle }
    else { m with reader := .idle }
  else if m.sess.respCode = 404 then { m with reader := .idle }
  else m

/-- The steps of a call after its first. -/
def readerStep (expired sent : Bool) : Machine :=
  match m.reader with
  | .idle => m
  | .waiting bufLen =>
    match m.sess.queue.front with
    | [] => m.poll expired sent
    | b :: rest =>
      if b = [] then { m with reader := .idle }
      else if bufLen < b.length then { m with reader := .idle }
      else
        -- a node linked between the load of `next` and the store to `front` is lost like one linked after it
        { m with
          sess := { m.sess with queue := ⟨rest, if rest = [] then .stale else m.sess.queue.rear⟩ }
          reader := .unlinked b }
  | .unlinked out =>
    { m with
      sess := { m.sess with
        queue := if m.sess.queue.front = [] then ⟨[], .null⟩ else m.sess.queue
        rangeOffset := u32 (m.sess.rangeOffset + out.length)
        retryCount := 0 }
      reader := .idle
      returned := m.returned ++ out }

/-- What can happen next. The library answers the requests in order, one callback after the other; a request may be
    lost and a response may break off. -/
inductive Act where
  | call (bufLen : ℕ) (sent : Bool)
  | reader (expired sent : Bool)
  /-- the response to the first pending request begins -/
  | answer
  /-- the first pending request is lost -/
  | lose
  /-- the first pending request is answered with 404 -/
  | notFound
  /-- the next `n` bytes of the response are handed over -/
  | piece (n : ℕ) (finished nodeOk bufOk : Bool)
  /-- the callback makes its next store -/
  | store
  /-- the response breaks off, with a negative state -/
  | broken
  deriving DecidableEq, Repr

/-- A callback with the next `n` bytes of the response, to its test of `rear`. -/
def receive (r : Request) (rest : Bytes) (n : ℕ) (finished nodeOk bufOk : Bool) : Machine :=
  { m with
    sess := (httpClientCbOta m.sess (rest.take n) finished nodeOk bufOk).1
    callback := (httpClientCbOta m.sess (rest.take n) finished nodeOk bufOk).2
    inFlight := if finished then none else some (r, rest.drop n) }

/-- Its next store. -/
def store : Machine :=
  { m with
    sess := { m.sess with queue := (m.callback.store m.sess.queue).1 }
    callback := (m.callback.store m.sess.queue).2 }

/-- One action; one that is not possible leaves everything as it is. -/
def step (body : Bytes) : Act → Machine
  | .call bufLen sent => if m.reader = .idle ∧ 0 < bufLen then m.call body bufLen sent else m
  | .reader expired sent => m.readerStep expired sent
  | .answer =>
    match m.pending with
    | r :: rest =>
      if m.callback = .idle ∧ m.inFlight = none then { m with pending := rest, inFlight := some (r, r.slice body) } else m
    | [] => m
  | .lose => { m with pending := m.pending.tail }
  | .notFound =>
    match m.pending with
    | _ :: rest =>
      if m.callback = .idle ∧ m.inFlight = none then
        { m with pending := rest, sess := { m.sess with respCode := 404 } }
      else m
    | [] => m
  | .piece n finished nodeOk bufOk =>
    match m.inFlight with
    | none => m
    | some (r, rest) =>
      -- the last piece ends the response
      if m.callback ≠ .idle ∨ finished = true ∧ rest.drop n ≠ [] then m
      else m.receive r rest n finished nodeOk bufOk
  | .store => m.store
  | .broken => if m.callback = .idle then { m with inFlight := none } else m

/-- The machine after the actions `as`. -/
def run (body : Bytes) (m : Machine) (as : List Act) : Machine := as.foldl (fun m a => m.step body a) m

/-! ### What the download promises -/

/-- The bytes returned, in the reader's hands and queued. -/
def delivered : Bytes := m.returned ++ m.reader.inHand ++ m.sess.queue.front.flatten

/-- The bytes returned are a prefix of the body, and they still are when those in the queue are added: nothing is
    queued twice and nothing skipped. `QAPI_OK` with size 0 was returned only when all of the length that the
    session knows had been. -/
structure Exact (body : Bytes) (m : Machine) : Prop where
  returned : m.returned <+: body
  delivered : m.delivered <+: body
  zeros : ∀ z ∈ m.zeros, z = body.take (u32 body.length)

end Machine

end Qcc730.Ota.Http
