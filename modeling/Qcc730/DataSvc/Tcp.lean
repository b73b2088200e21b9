import Qcc730.Lib.Reach

/-! The send side of a TCP connection.

    The host's packets come out of the A2F ring one at a time. The handler keeps the one it is writing in
    `send_buff`, moves it to the end of `ack_list` once lwIP has taken all of it, and frees it when its bytes are
    acknowledged: lwIP is given the buffer itself and no copy. `data_svc_tcp_sent` is called with the number of
    bytes acknowledged since the last call; `ack_length` counts those of buffers that are not freed yet.

    The lists are linked in the source and a buffer enters `ack_list` with a null `next`. lwIP decides how much
    it has room for, how often `tcp_write` fails and what is acknowledged. The data loopback of the test builds is
    off. -/

namespace Qcc730.DataSvc
open Lib

/-- A 16-bit value. -/
def u16 (n : ℕ) : ℕ := n % 65536

theorem u16_of_lt {n : ℕ} (h : n < 65536) : u16 n = n := Nat.mod_eq_of_lt h

theorem u16_lt (n : ℕ) : u16 n < 65536 := Nat.mod_lt _ (by decide)

/-- `tcp_send_buff_t` with its `pbuf`: which allocation it is, and how long. -/
structure SendBuff where
  pbuf : ℕ
  len : ℕ
  deriving DecidableEq, Repr

/-- The bytes of some buffers. -/
def total (l : List SendBuff) : ℕ := (l.map SendBuff.len).sum

@[simp] theorem total_nil : total [] = 0 := rfl

@[simp] theorem total_cons (b : SendBuff) (l : List SendBuff) : total (b :: l) = b.len + total l := by
  simp [total]

@[simp] theorem total_append (l l' : List SendBuff) : total (l ++ l') = total l + total l' := by
  simp [total]

/-- A `tcp_write` that returned `ERR_OK`. -/
structure Write where
  pbuf : ℕ
  offset : ℕ
  len : ℕ
  deriving DecidableEq, Repr

/-- `conn_handler_t`, as far as the send side uses it. -/
structure TcpConn where
  /-- `pcb` is not NULL -/
  pcb : Bool
  sendBuff : Option SendBuff
  sentLength : ℕ
  ackList : List SendBuff
  ackLength : ℕ
  deriving DecidableEq, Repr

/-- The loop around `tcp_write`, which fails `fails` times before it succeeds: the length that is written. -/
def writeLoop : ℕ → ℕ → ℕ
  | 0, writeLen => writeLen
  | fails + 1, writeLen => if 0 < writeLen / 2 then writeLoop fails (writeLen / 2) else 0

namespace TcpConn

/-- `send_data_out`; `sndbuf` is what `tcp_sndbuf` returns. -/
def sendDataOut (c : TcpConn) (sndbuf fails : ℕ) : TcpConn × List Write :=
  match c.sendBuff with
  | none => (c, [])
  | some b =>
    if ¬ c.pcb then (c, [])
    else
      let availLen := u16 sndbuf
      let remLen := u16 (b.len + 65536 - c.sentLength)
      let writeLen := writeLoop fails (if remLen < availLen then remLen else availLen)
      let ws := if 0 < writeLen then [⟨b.pbuf, c.sentLength, writeLen⟩] else []
      let sent := if 0 < writeLen then u16 (c.sentLength + writeLen) else c.sentLength
      if sent = b.len then
        ({ c with ackList := c.ackList ++ [b], sendBuff := none, sentLength := 0 }, ws)
      else ({ c with sentLength := sent }, ws)

/-- `data_svc_process_tcp_pkt` for an element of this connection; `alloc` says whether there is memory for a
    `tcp_send_buff_t`. -/
def processTcpPkt (c : TcpConn) (pbuf len : ℕ) (alloc : Bool) (sndbuf fails : ℕ) : Bool × TcpConn × List Write :=
  match c.sendBuff with
  | some _ => (false, c, [])
  | none =>
    if alloc then (true, { c with sendBuff := some ⟨pbuf, u16 len⟩ }.sendDataOut sndbuf fails) else (false, c, [])

/-- The loop of `data_svc_tcp_sent`: what is freed, `ack_length` and `ack_list`. It has no result if it reads
    `ack_list->p_pbuf` of a NULL `ack_list`. -/
def freeAcked : ℕ → List SendBuff → Option (List SendBuff × ℕ × List SendBuff)
  | _, [] => none
  | a, b :: l =>
    if b.len < a then (freeAcked (a - b.len) l).map fun r => (b :: r.1, r.2)
    else some ([], a, b :: l)

/-- `data_svc_tcp_sent` with the response sent: what is freed, the handler, and what is written. -/
def tcpSent (c : TcpConn) (len sndbuf fails : ℕ) : Option (List SendBuff × TcpConn × List Write) :=
  let ackLength := u16 (c.ackLength + len)
  match c.ackList with
  | [] => some ([], { c with ackLength := ackLength }.sendDataOut sndbuf fails)
  | _ :: _ =>
    match freeAcked ackLength c.ackList with
    | none => none
    | some (f, a, l) => some (f, { c with ackLength := a, ackList := l }.sendDataOut sndbuf fails)

end TcpConn

/-- A connection and what became of its buffers. -/
structure Traffic where
  conn : TcpConn
  /-- the buffers of the host's packets, in the order they were accepted -/
  taken : List SendBuff
  writes : List Write
  /-- the bytes lwIP has reported as acknowledged -/
  acked : ℕ
  freed : List SendBuff
  /-- a NULL pointer was read -/
  fault : Bool
  deriving DecidableEq, Repr

inductive TcpEvent where
  /-- `data_svc_process_tcp_pkt` with an element of this connection -/
  | packet (pbuf len : ℕ) (alloc : Bool) (sndbuf fails : ℕ)
  /-- `data_svc_tcp_sent`; `rsp` and `cfm` say whether `ringif_get_ctrl_buf` and `ringif_send_ip_conn_config`
      succeed -/
  | sent (len : ℕ) (rsp cfm : Bool) (sndbuf fails : ℕ)
  deriving DecidableEq, Repr

namespace Traffic

/-- After `tcp_accept_client` or `data_svc_tcp_client_connect_req`. -/
def start : Traffic := ⟨⟨true, none, 0, [], 0⟩, [], [], 0, [], false⟩

/-- The bytes lwIP has taken. -/
def written (s : Traffic) : ℕ := (s.writes.map Write.len).sum

def step (s : Traffic) (e : TcpEvent) : Traffic :=
  if s.fault then s
  else
    match e with
    | .packet pbuf len alloc sndbuf fails =>
      let r := s.conn.processTcpPkt pbuf len alloc sndbuf fails
      { s with
        conn := r.2.1
        taken := if r.1 then s.taken ++ [⟨pbuf, u16 len⟩] else s.taken
        writes := s.writes ++ r.2.2 }
    | .sent len rsp cfm sndbuf fails =>
      if rsp ∧ cfm then
        match s.conn.tcpSent len sndbuf fails with
        | none => { s with acked := s.acked + len, fault := true }
        | some (f, c, ws) =>
          { s with conn := c, writes := s.writes ++ ws, acked := s.acked + len, freed := s.freed ++ f }
      else { s with acked := s.acked + len }

/-- lwIP acknowledges only what was written and not acknowledged before. -/
def Legal (s : Traffic) : TcpEvent → Prop
  | .packet _ _ _ _ _ => True
  | .sent len _ _ _ _ => len < 65536 ∧ s.acked + len ≤ s.written

instance (s : Traffic) : ∀ e, Decidable (s.Legal e)
  | .packet _ _ _ _ _ => inferInstanceAs (Decidable True)
  | .sent _ _ _ _ _ => inferInstanceAs (Decidable (_ ∧ _))

/-- Where the `k`-th buffer ends in the stream of the connection. -/
def bufferEnd (s : Traffic) (k : ℕ) : ℕ := total (s.taken.take (k + 1))

/-- Buffers are freed exactly when they are acknowledged. -/
structure Exact (s : Traffic) : Prop where
  noFault : s.fault = false
  /-- `ack_length` counts the acknowledged bytes of buffers that are not freed -/
  count : s.conn.ackLength + total s.freed = s.acked
  /-- in order, and each at most once -/
  order : s.freed <+: s.taken
  /-- not before all its bytes are acknowledged -/
  early : ∀ k < s.freed.length, s.bufferEnd k ≤ s.acked
  /-- and no later than that -/
  late : ∀ k b, s.taken[k]? = some b → 0 < b.len → s.bufferEnd k ≤ s.acked → k < s.freed.length

end Traffic

/-! ### Writing -/

theorem writeLoop_le (fails n : ℕ) : writeLoop fails n ≤ n := by
  induction fails generalizing n with
  | zero => exact le_rfl
  | succ fails ih =>
    rw [writeLoop]
    split
    · exact (ih _).trans (Nat.div_le_self _ _)
    · exact Nat.zero_le _

/-- The buffer in `send_buff` is not written to its end. -/
def TcpConn.Open (c : TcpConn) : Prop :=
  match c.sendBuff with
  | none => c.sentLength = 0
  | some b => b.len < 65536 ∧ (c.sentLength = 0 ∨ c.sentLength < b.len)

/-- `send_data_out` writes the next bytes of the buffer, and moves it to `ack_list` when these are its last. -/
theorem TcpConn.sendDataOut_cases {c : TcpConn} (h : c.Open) (sndbuf fails : ℕ) :
    (c.sendBuff = none ∧ c.sendDataOut sndbuf fails = (c, [])) ∨
    ∃ b n ws, c.sendBuff = some b ∧ c.sentLength + n ≤ b.len ∧
      ((n = 0 ∧ ws = []) ∨ (0 < n ∧ ws = [⟨b.pbuf, c.sentLength, n⟩])) ∧
      ((c.sentLength + n = b.len ∧ c.sendDataOut sndbuf fails =
          ({ c with ackList := c.ackList ++ [b], sendBuff := none, sentLength := 0 }, ws)) ∨
        ((c.sentLength + n = 0 ∨ c.sentLength + n < b.len) ∧
          c.sendDataOut sndbuf fails = ({ c with sentLength := c.sentLength + n }, ws))) := by
  obtain ⟨pcb, sb, sl, al, a⟩ := c
  cases sb with
  | none => exact .inl ⟨rfl, rfl⟩
  | some b =>
  obtain ⟨hlt, hopen⟩ : b.len < 65536 ∧ (sl = 0 ∨ sl < b.len) := h
  refine .inr ?_
  cases pcb with
  | false => exact ⟨b, 0, [], rfl, by dsimp only; omega, .inl ⟨rfl, rfl⟩, .inr ⟨hopen, rfl⟩⟩
  | true =>
  have hrem : u16 (b.len + 65536 - sl) = b.len - sl := by
    rw [u16]
    omega
  have hn := writeLoop_le fails (if b.len - sl < u16 sndbuf then b.len - sl else u16 sndbuf)
  simp only [sendDataOut, not_true_eq_false, if_false, hrem]
  generalize writeLoop fails _ = n at hn ⊢
  have hnle : n ≤ b.len - sl := by
    split at hn <;> omega
  have hsent : (if 0 < n then u16 (sl + n) else sl) = sl + n := by
    split
    · exact u16_of_lt (by omega)
    · omega
  simp only [hsent]
  refine ⟨b, n, if 0 < n then [⟨b.pbuf, sl, n⟩] else [], rfl, by omega, ?_, ?_⟩
  · by_cases hpos : 0 < n
    · exact .inr ⟨hpos, if_pos hpos⟩
    · exact .inl ⟨by omega, if_neg hpos⟩
  · by_cases heq : sl + n = b.len
    · exact .inl ⟨heq, if_pos heq⟩
    · exact .inr ⟨by omega, if_neg heq⟩

@[simp] theorem TcpConn.sendDataOut_ackLength (c : TcpConn) (sndbuf fails : ℕ) :
    (c.sendDataOut sndbuf fails).1.ackLength = c.ackLength := by
  rw [sendDataOut]
  split
  · rfl
  · split
    · rfl
    · rw [apply_ite Prod.fst, apply_ite TcpConn.ackLength]
      exact ite_self _

/-- A packet is refused, or it is the next one to be written. -/
theorem TcpConn.processTcpPkt_cases (c : TcpConn) (pbuf len : ℕ) (alloc : Bool) (sndbuf fails : ℕ) :
    c.processTcpPkt pbuf len alloc sndbuf fails = (false, c, []) ∨
    (c.sendBuff = none ∧ c.processTcpPkt pbuf len alloc sndbuf fails =
      (true, { c with sendBuff := some ⟨pbuf, u16 len⟩ }.sendDataOut sndbuf fails)) := by
  obtain ⟨pcb, sb, sl, al, a⟩ := c
  cases sb with
  | some b => exact .inl rfl
  | none =>
    cases alloc with
    | false => exact .inl rfl
    | true => exact .inr ⟨rfl, rfl⟩

/-! ### Freeing -/

theorem freeAcked_none_iff {a : ℕ} {l : List SendBuff} (h : l ≠ [] ∨ 0 < a) :
    TcpConn.freeAcked a l = none ↔ total l < a := by
  induction l generalizing a with
  | nil => simpa [TcpConn.freeAcked] using h
  | cons b l ih =>
    rw [TcpConn.freeAcked, total_cons]
    split
    · rw [Option.map_eq_none_iff, ih (.inr (by omega))]
      omega
    · simp only [reduceCtorEq, false_iff]
      omega

/-- The buffers before the one that the count does not reach past are freed. -/
theorem freeAcked_some {a : ℕ} {l f r : List SendBuff} {a' : ℕ} (h : TcpConn.freeAcked a l = some (f, a', r)) :
    l = f ++ r ∧ total f + a' = a ∧ (0 < a → 0 < a') ∧ ∃ b t, r = b :: t ∧ a' ≤ b.len := by
  induction l generalizing a f with
  | nil => simp [TcpConn.freeAcked] at h
  | cons b l ih =>
    rw [TcpConn.freeAcked] at h
    split at h
    · obtain ⟨⟨f', x⟩, hr, heq⟩ := Option.map_eq_some_iff.mp h
      simp only [Prod.mk.injEq] at heq
      obtain ⟨rfl, rfl⟩ := heq
      obtain ⟨rfl, hsum, hpos, hhead⟩ := ih hr
      refine ⟨rfl, ?_, fun _ => hpos (by omega), hhead⟩
      rw [total_cons]
      omega
    · simp only [Option.some.injEq, Prod.mk.injEq] at h
      obtain ⟨rfl, rfl, rfl⟩ := h
      exact ⟨rfl, by simp, id, b, l, rfl, by omega⟩

theorem TcpConn.tcpSent_nil {c : TcpConn} (h : c.ackList = []) (len sndbuf fails : ℕ) :
    c.tcpSent len sndbuf fails = some ([], { c with ackLength := u16 (c.ackLength + len) }.sendDataOut sndbuf fails) := by
  obtain ⟨pcb, sb, sl, al, a⟩ := c
  obtain rfl : al = [] := h
  rfl

theorem TcpConn.tcpSent_of_ne_nil {c : TcpConn} (h : c.ackList ≠ []) (len sndbuf fails : ℕ) :
    c.tcpSent len sndbuf fails = (freeAcked (u16 (c.ackLength + len)) c.ackList).map fun r =>
      (r.1, { c with ackLength := r.2.1, ackList := r.2.2 }.sendDataOut sndbuf fails) := by
  obtain ⟨pcb, sb, sl, al, a⟩ := c
  cases al with
  | nil => exact absurd rfl h
  | cons b l =>
    simp only [tcpSent]
    rcases freeAcked (u16 (a + len)) (b :: l) with _ | r <;> rfl

/-! ### The invariant -/

namespace Traffic

/-- The buffers are freed, wait for their acknowledgement, or are being written, in this order; and `ack_length`
    reaches the end of none that has bytes. -/
structure Inv (s : Traffic) : Prop where
  noFault : s.fault = false
  opened : s.conn.Open
  parts : s.taken = s.freed ++ (s.conn.ackList ++ s.conn.sendBuff.toList)
  written : s.written = total s.freed + total s.conn.ackList + s.conn.sentLength
  count : s.conn.ackLength + total s.freed = s.acked
  acked : s.acked ≤ s.written
  due : ∀ l₁ b l₂, s.conn.ackList = l₁ ++ b :: l₂ → 0 < b.len → s.conn.ackLength < total l₁ + b.len

theorem inv_start : Inv start :=
  ⟨rfl, rfl, rfl, rfl, rfl, le_rfl, fun l₁ b l₂ h => by simp [start] at h⟩

variable {s : Traffic}

/-- Everything of a buffer that is not freed ends behind what is acknowledged. -/
theorem Inv.behind (h : s.Inv) {X Y : List SendBuff} {b : SendBuff}
    (hX : s.conn.ackList ++ s.conn.sendBuff.toList = X ++ b :: Y) (hb : 0 < b.len) :
    s.acked < total s.freed + (total X + b.len) := by
  have hcount := h.count
  have hacked := h.acked
  have hopen := h.opened
  rw [h.written] at hacked
  rw [TcpConn.Open] at hopen
  rcases hsb : s.conn.sendBuff with _ | b' <;> rw [hsb] at hX hopen
  · have := h.due X b Y (by simpa using hX) hb
    omega
  dsimp only at hopen
  rcases List.eq_nil_or_concat Y with rfl | ⟨Y, y, rfl⟩
  · -- it is the one being written
    obtain ⟨hl, hb'⟩ := List.append_inj' hX rfl
    obtain rfl : b' = b := by simpa using hb'
    rw [hl] at hacked
    omega
  · rw [List.concat_eq_append, ← List.cons_append, ← List.append_assoc] at hX
    obtain ⟨hl, -⟩ := List.append_inj' hX rfl
    have := h.due X b Y hl hb
    omega

theorem Inv.exact (h : s.Inv) : s.Exact := by
  have htake : ∀ k < s.freed.length, total (s.taken.take (k + 1)) ≤ total s.freed := by
    intro k hk
    rw [h.parts, List.take_append_of_le_length hk]
    conv_rhs => rw [← List.take_append_drop (k + 1) s.freed, total_append]
    exact Nat.le_add_right _ _
  refine ⟨h.noFault, h.count, ⟨_, h.parts.symm⟩, fun k hk => ?_, fun k b hk hb hend => ?_⟩
  · have := htake k hk
    have hcount := h.count
    rw [bufferEnd]
    omega
  · by_contra hlt
    obtain ⟨hk', rfl⟩ := List.getElem?_eq_some_iff.mp hk
    have hsplit : s.taken = s.taken.take k ++ s.taken[k] :: s.taken.drop (k + 1) := by
      rw [← List.drop_eq_getElem_cons hk', List.take_append_drop]
    have hfreed : s.taken.take k = s.freed ++ (s.taken.take k).drop s.freed.length := by
      conv_lhs => rw [← List.take_append_drop s.freed.length (s.taken.take k)]
      rw [List.take_take, min_eq_left (by omega), h.parts, List.take_left]
    have hrest : s.conn.ackList ++ s.conn.sendBuff.toList =
        (s.taken.take k).drop s.freed.length ++ s.taken[k] :: s.taken.drop (k + 1) := by
      have := h.parts
      rw [hsplit, hfreed, List.append_assoc] at this
      exact (List.append_cancel_left this).symm
    have hlate := h.behind hrest hb
    have hsum : s.bufferEnd k = total s.freed + total ((s.taken.take k).drop s.freed.length) + s.taken[k].len := by
      rw [bufferEnd, List.take_add_one, List.getElem?_eq_getElem hk', total_append]
      conv_lhs => rw [hfreed, total_append]
      simp
    omega

/-! ### One event -/

/-- The condition on an event. A callback gets its control buffer and its response is sent, or it acknowledges
    nothing; `ack_length` does not overflow; and unless the list is empty, what it comes to is neither at the end
    of a buffer of the list nor beyond the list. -/
def Inside (s : Traffic) : TcpEvent → Prop
  | .packet _ _ _ _ _ => True
  | .sent len rsp cfm _ _ =>
    if rsp ∧ cfm then
      s.conn.ackLength + len < 65536 ∧ (s.conn.ackList = [] ∨ s.conn.ackLength + len = 0 ∨
        (s.conn.ackLength + len < total s.conn.ackList ∧
          ∀ n ≤ s.conn.ackList.length, total (s.conn.ackList.take n) ≠ s.conn.ackLength + len))
    else len = 0

instance (s : Traffic) : ∀ e, Decidable (s.Inside e)
  | .packet _ _ _ _ _ => inferInstanceAs (Decidable True)
  | .sent len rsp cfm _ _ => by
    unfold Inside
    infer_instance

theorem Inv.sendOut (h : s.Inv) (sndbuf fails : ℕ) :
    Inv { s with
      conn := (s.conn.sendDataOut sndbuf fails).1
      writes := s.writes ++ (s.conn.sendDataOut sndbuf fails).2 } := by
  have hcount := h.count
  have hacked := h.acked
  have hwritten := h.written
  rcases TcpConn.sendDataOut_cases h.opened sndbuf fails with ⟨hb, heq⟩ | ⟨b, n, ws, hb, hle, hws, hend⟩
  · rw [heq]
    simpa only [List.append_nil] using h
  have hparts := h.parts
  have hopen := h.opened
  rw [TcpConn.Open, hb] at hopen
  rw [hb, Option.toList_some] at hparts
  have hsum : ∀ c t a f, Traffic.written ⟨c, t, s.writes ++ ws, a, f, s.fault⟩ = s.written + n := by
    intro c t a f
    rcases hws with ⟨rfl, rfl⟩ | ⟨-, rfl⟩ <;> simp [Traffic.written]
  rcases hend with ⟨hfull, heq⟩ | ⟨hpart, heq⟩ <;> rw [heq]
  · -- the buffer is complete
    refine ⟨h.noFault, rfl, by simpa using hparts, ?_, hcount, ?_, ?_⟩
    · dsimp only
      rw [hsum, total_append, total_cons, total_nil]
      omega
    · dsimp only
      rw [hsum]
      omega
    · intro l₁ b' l₂ hl hb'
      have := h.behind (X := l₁) (b := b') (Y := l₂) (by rw [hb]; exact hl) hb'
      dsimp only at this ⊢
      omega
  · refine ⟨h.noFault, ?_, by simpa [hb] using hparts, ?_, hcount, ?_, h.due⟩
    · rw [TcpConn.Open]
      dsimp only
      rw [hb]
      exact ⟨hopen.1, hpart⟩
    · dsimp only
      rw [hsum]
      omega
    · dsimp only
      rw [hsum]
      omega

theorem Inv.packet (h : s.Inv) (pbuf len : ℕ) (alloc : Bool) (sndbuf fails : ℕ) :
    Inv (s.step (.packet pbuf len alloc sndbuf fails)) := by
  rw [step, if_neg (by simp [h.noFault])]
  dsimp only
  rcases s.conn.processTcpPkt_cases pbuf len alloc sndbuf fails with heq | ⟨hb, heq⟩ <;> rw [heq]
  · simpa using h
  simp only [if_true]
  have hopen := h.opened
  rw [TcpConn.Open, hb] at hopen
  have hnew : Inv { s with
      conn := { s.conn with sendBuff := some ⟨pbuf, u16 len⟩ }, taken := s.taken ++ [⟨pbuf, u16 len⟩] } := by
    refine ⟨h.noFault, ⟨u16_lt _, .inl hopen⟩, ?_, h.written, h.count, h.acked, h.due⟩
    have := h.parts
    rw [hb] at this
    simp [this]
  exact hnew.sendOut sndbuf fails

/-- A callback that is counted. -/
theorem step_sent (h : s.fault = false) (len sndbuf fails : ℕ) :
    s.step (.sent len true true sndbuf fails) =
      match s.conn.tcpSent len sndbuf fails with
      | none => { s with acked := s.acked + len, fault := true }
      | some (f, c, ws) =>
        { s with conn := c, writes := s.writes ++ ws, acked := s.acked + len, freed := s.freed ++ f } := by
  rw [step, if_neg (by simp [h])]
  simp

theorem step_sent_lost (h : s.fault = false) (len : ℕ) {rsp cfm : Bool} (hr : ¬ (rsp = true ∧ cfm = true))
    (sndbuf fails : ℕ) : s.step (.sent len rsp cfm sndbuf fails) = { s with acked := s.acked + len } := by
  rw [step, if_neg (by simp [h])]
  simp only [if_neg hr]

theorem Inv.counted (h : s.Inv) {len : ℕ} (hlegal : s.acked + len ≤ s.written) (sndbuf fails : ℕ)
    (hin : s.Inside (.sent len true true sndbuf fails)) : Inv (s.step (.sent len true true sndbuf fails)) := by
  have hcount := h.count
  rw [Inside, if_pos ⟨rfl, rfl⟩] at hin
  obtain ⟨hlt, hcases⟩ := hin
  rw [step_sent h.noFault]
  by_cases hl : s.conn.ackList = []
  · rw [TcpConn.tcpSent_nil hl, u16_of_lt hlt]
    -- no buffer waits: the bytes are those of the one being written
    have hnew : Inv { s with conn := { s.conn with ackLength := s.conn.ackLength + len }, acked := s.acked + len } := by
      refine ⟨h.noFault, h.opened, h.parts, h.written, by dsimp only; omega, hlegal, fun l₁ b l₂ hl' => ?_⟩
      dsimp only at hl'
      rw [hl] at hl'
      simp at hl'
    simpa using hnew.sendOut sndbuf fails
  rw [TcpConn.tcpSent_of_ne_nil hl, u16_of_lt hlt]
  rcases hr : TcpConn.freeAcked (s.conn.ackLength + len) s.conn.ackList with _ | ⟨f, a, r⟩
  · have hover := (freeAcked_none_iff (.inl hl)).mp hr
    rcases hcases with hnil | hzero | ⟨hin, -⟩
    · exact absurd hnil hl
    · omega
    · omega
  obtain ⟨hsplit, hsum, -, b', t, rfl, hle⟩ := freeAcked_some hr
  have hstop : ∀ l₁ x l₂, b' :: t = l₁ ++ x :: l₂ → 0 < x.len → a < total l₁ + x.len := by
    intro l₁ x l₂ hx hpos
    have hne' : a < b'.len ∨ a = 0 := by
      rcases hcases with hnil | hzero | ⟨-, hnot⟩
      · exact absurd hnil hl
      · omega
      · have := hnot (f.length + 1) (by rw [hsplit]; simp)
        rw [hsplit, List.take_append, List.take_of_length_le (by omega), Nat.add_sub_cancel_left, total_append,
          List.take_succ_cons, List.take_zero, total_cons, total_nil] at this
        omega
    rcases l₁ with _ | ⟨y, l₁⟩
    · simp only [List.nil_append, List.cons.injEq] at hx
      obtain ⟨rfl, -⟩ := hx
      simp only [total_nil]
      omega
    · simp only [List.cons_append, List.cons.injEq] at hx
      obtain ⟨rfl, -⟩ := hx
      rw [total_cons]
      omega
  have hnew : Inv { s with
      conn := { s.conn with ackLength := a, ackList := b' :: t }, acked := s.acked + len, freed := s.freed ++ f } := by
    refine ⟨h.noFault, h.opened, ?_, ?_, ?_, hlegal, hstop⟩
    · have := h.parts
      rw [hsplit] at this
      simpa using this
    · have hw := h.written
      rw [hsplit] at hw
      simp only [total_append] at hw ⊢
      exact hw.trans (by omega)
    · simp only [total_append]
      omega
  exact hnew.sendOut sndbuf fails

theorem Inv.step (h : s.Inv) {e : TcpEvent} (hlegal : s.Legal e) (hin : s.Inside e) : Inv (s.step e) := by
  cases e with
  | packet pbuf len alloc sndbuf fails => exact h.packet pbuf len alloc sndbuf fails
  | sent len rsp cfm sndbuf fails =>
    by_cases hr : rsp = true ∧ cfm = true
    · obtain ⟨rfl, rfl⟩ := hr
      exact h.counted hlegal.2 sndbuf fails hin
    · rw [Inside, if_neg hr] at hin
      subst hin
      rw [step_sent_lost h.noFault 0 hr]
      exact h

/-- A sum over a prefix is no larger than that over the list. -/
theorem total_take_le (l : List SendBuff) (n : ℕ) : total (l.take n) ≤ total l := by
  conv_rhs => rw [← List.take_append_drop n l, total_append]
  exact Nat.le_add_right _ _

/-- A callback after which the buffers are freed as they should be meets the condition. -/
theorem Inv.inside_of_counted (h : s.Inv) {len sndbuf fails : ℕ}
    (he : Exact (s.step (.sent len true true sndbuf fails))) : s.Inside (.sent len true true sndbuf fails) := by
  have hcount := h.count
  rw [step_sent h.noFault] at he
  rw [Inside, if_pos ⟨rfl, rfl⟩]
  by_cases hl : s.conn.ackList = []
  · refine ⟨?_, .inl hl⟩
    rw [TcpConn.tcpSent_nil hl] at he
    have hc := he.count
    simp only [List.append_nil, TcpConn.sendDataOut_ackLength, u16] at hc
    omega
  rw [TcpConn.tcpSent_of_ne_nil hl] at he
  rcases hr : TcpConn.freeAcked (u16 (s.conn.ackLength + len)) s.conn.ackList with _ | ⟨f, a, r⟩ <;> rw [hr] at he
  · exact absurd he.noFault (by simp)
  obtain ⟨hsplit, hsum, hpos, b, t, rfl, hle⟩ := freeAcked_some hr
  have hc := he.count
  simp only [Option.map_some, total_append, TcpConn.sendDataOut_ackLength] at hc
  have hlt : s.conn.ackLength + len < 65536 := by
    rw [u16] at hsum
    omega
  rw [u16_of_lt hlt] at hsum hpos
  refine ⟨hlt, .inr ?_⟩
  by_cases hzero : s.conn.ackLength + len = 0
  · exact .inl hzero
  have ha := hpos (by omega)
  -- the buffer that the loop stops at is not acknowledged to its end
  have hstop : a < b.len := by
    by_contra hge
    have htaken : s.taken = (s.freed ++ f) ++ b :: (t ++ s.conn.sendBuff.toList) := by
      rw [h.parts, hsplit]
      simp
    have hlate := he.late (s.freed ++ f).length b (by simp [htaken]) (by omega) (by
      simp only [bufferEnd, Option.map_some, htaken]
      rw [List.take_append, List.take_of_length_le (by omega), Nat.add_sub_cancel_left]
      simp only [total_append, List.take_succ_cons, List.take_zero, total_cons, total_nil]
      omega)
    simp at hlate
  rw [hsplit]
  refine .inr ⟨?_, fun n _ => ?_⟩
  · rw [total_append, total_cons]
    omega
  · rw [List.take_append, total_append]
    by_cases hn : n ≤ f.length
    · have := total_take_le f n
      rw [Nat.sub_eq_zero_of_le hn, List.take_zero, total_nil]
      omega
    · obtain ⟨m, hm⟩ := Nat.exists_eq_add_of_lt (Nat.lt_of_not_le hn)
      rw [List.take_of_length_le (by omega), show n - f.length = m + 1 by omega, List.take_succ_cons, total_cons]
      omega

/-- The buffers are freed as they should be after an event if and only if it meets the condition. -/
theorem Inv.exact_step_iff (h : s.Inv) {e : TcpEvent} (hlegal : s.Legal e) : Exact (s.step e) ↔ s.Inside e := by
  refine ⟨fun he => ?_, fun hin => (h.step hlegal hin).exact⟩
  cases e with
  | packet pbuf len alloc sndbuf fails => trivial
  | sent len rsp cfm sndbuf fails =>
    by_cases hr : rsp = true ∧ cfm = true
    · obtain ⟨rfl, rfl⟩ := hr
      exact h.inside_of_counted he
    · rw [Inside, if_neg hr]
      rw [step_sent_lost h.noFault len hr] at he
      have hcount := h.count
      have hc := he.count
      dsimp only at hc
      omega

/-- In a run of a connection, with any packets, any room, any failed writes and any acknowledgements that lwIP can
    give, the buffers are at all times freed exactly when they are acknowledged if and only if every event
    meets the condition. -/
theorem freed_when_acked_iff (es : List TcpEvent) (hlegal : Along step Legal start es) :
    Along step (fun s e => Exact (s.step e)) start es ↔ Along step Inside start es :=
  Along.iff (fun _ _ h hl hin => h.step hl hin) (fun _ _ h hl => h.exact_step_iff hl) inv_start hlegal

/-- Two packets; the second is written in two parts. An acknowledgement of part of the first one, then one of its
    rest and some of the second. -/
theorem freed_when_acked_two :
    let es : List TcpEvent := [.packet 1 4 true 100 0, .packet 2 6 true 100 1, .sent 3 true true 100 0,
      .sent 4 true true 100 0]
    Along step (fun s e => Exact (s.step e)) start es ∧ (es.foldl step start).freed = [⟨1, 4⟩] := by
  intro es
  exact ⟨(freed_when_acked_iff es (by decide)).mpr (by decide), by decide⟩

/-- A packet of four bytes that is written and acknowledged at once is not freed. An acknowledgement that reaches
    into the packet being written, with another one waiting, reads a NULL `ack_list`. One without a control
    buffer is not counted. -/
theorem acked_not_freed :
    (let es : List TcpEvent := [.packet 1 4 true 100 0, .sent 4 true true 100 0]
    Along step Legal start es ∧ ¬ Exact (es.foldl step start)) ∧
    (let es : List TcpEvent := [.packet 1 4 true 100 0, .packet 2 6 true 100 1, .sent 6 true true 100 0]
    Along step Legal start es ∧ (es.foldl step start).fault = true) ∧
    (let es : List TcpEvent := [.packet 1 4 true 100 0, .sent 3 false true 100 0]
    Along step Legal start es ∧ (es.foldl step start).conn.ackLength = 0 ∧ (es.foldl step start).acked = 3) := by
  refine ⟨⟨by decide, fun h => ?_⟩, by decide, by decide⟩
  have hlate := h.late 0 ⟨1, 4⟩ (by decide) (by decide) (by decide)
  exact absurd hlate (by decide)

end Traffic

end Qcc730.DataSvc
