import Qcc730.Ring.F2a

/-! The buffers of control messages to the host.

    A sender gets a buffer, fills it and passes it to `ringif_send_config_pkt`, which puts it into the queue of the
    ring task. The task attaches it to the control F2A ring, and the buffer is freed when the host has read it.
    Each layer frees on its own failures: the callee in `ringif_send_config_pkt`, most senders again when that
    returns FALSE, and the ring task when the ring is full. Buffers are numbered in the order they were obtained. -/

namespace Qcc730.Ring
open Lib

/-! ### CONFIG_INFO_ENUM -/

def configInfoInvalid : ℕ := 0
def configInfoIpConnect : ℕ := 3
def configInfoMax : ℕ := 7

/-- The message in the `k`-th buffer. -/
def message (k len info : ℕ) : Packet := ⟨⟨k + 1, len, info, k + 1⟩, by simp [Element.Filled]⟩

/-- What a call does with the buffer: what it returns, what it frees and what it puts into the queue. -/
structure Sent where
  ret : Bool
  freed : List ℕ
  queued : List Packet

/-- `ringif_send_config_pkt`; `size` is `ringif_get_ctrl_buf_size`, and `queued` and `notified` say whether
    `nt_osal_queue_send` and `xTaskNotify` succeed. `ringif_free_ctrl_buf` returns TRUE. -/
def ringifSendConfigPkt (size : ℕ) (p : Packet) (queued notified : Bool) : Sent :=
  if p.elem.info = configInfoInvalid ∨ configInfoMax ≤ p.elem.info then ⟨true, [p.elem.pBuf], []⟩
  else if size < p.elem.len then ⟨true, [p.elem.pBuf], []⟩
  else if queued then
    if notified then ⟨true, [], [p]⟩ else ⟨false, [p.elem.pBuf], [p]⟩
  else ⟨false, [p.elem.pBuf], []⟩

/-- A sender that frees the buffer itself when the call returns FALSE, or does not. -/
def sendWith (frees : Bool) (r : Sent) (buf : ℕ) : Sent :=
  if r.ret = false ∧ frees then { r with freed := r.freed ++ [buf] } else r

/-- What `ringif_clear_ctrl_elem` returns for an element with a buffer. -/
def clearCtrlElem (e : Element) : Bool := e.len ≠ 0

/-- The queue, the control F2A ring and the buffers. -/
structure Messages where
  /-- how many buffers were obtained -/
  got : ℕ
  queue : List Packet
  ring : F2a
  /-- every buffer that was freed, in order -/
  freed : List ℕ

inductive MessageAct where
  /-- a message is built and sent -/
  | send (len info : ℕ) (frees queued notified : Bool)
  /-- the ring task takes a message out of the queue -/
  | task
  /-- the host reads `k` messages on -/
  | host (k : ℕ)
  /-- the ring task gets one statement of `ringif_f2a_clear_used_bufs` on -/
  | clear

namespace Messages

def create (numElem readIdx : ℕ) : Messages := ⟨0, [], .create numElem readIdx, []⟩

def send (size : ℕ) (s : Messages) (len info : ℕ) (frees queued notified : Bool) : Messages :=
  let p := message s.got len info
  let r := sendWith frees (ringifSendConfigPkt size p queued notified) p.elem.pBuf
  { s with got := s.got + 1, queue := s.queue ++ r.queued, freed := s.freed ++ r.freed }

/-- The loop of `ringif_handle_tasks` over the queue. -/
def task (s : Messages) : Messages :=
  match s.queue with
  | [] => s
  | p :: q =>
    { s with
      queue := q
      ring := s.ring.attach p
      freed := if (s.ring.ring.f2aPktAttach p.elem).1 then s.freed else s.freed ++ [p.elem.pBufStart] }

/-- What the clear function is called for. -/
def clearing (s : Messages) : Bool :=
  match s.ring.call with
  | .loop idx => clearCtrlElem (s.ring.ring.elem idx)
  | _ => true

def clear (s : Messages) : Messages :=
  let r := s.ring.clear s.clearing
  { s with ring := r, freed := s.freed ++ (r.cleared.drop s.ring.cleared.length).map Element.pBufStart }

def act (size : ℕ) (s : Messages) : MessageAct → Messages
  | .send len info frees queued notified => s.send size len info frees queued notified
  | .task => s.task
  | .host k => { s with ring := s.ring.host k }
  | .clear => s.clear

/-- The messages in the ring that are not cleared. -/
def inRing (s : Messages) : List Element := s.ring.attached.drop s.ring.cleared.length

/-- Every buffer is in one place only: freed, and that once, in the queue or in the ring; and those in the last two
    can be cleared. -/
structure Accounted (s : Messages) : Prop where
  once : (s.freed ++ ((s.queue.map fun p => p.elem.pBufStart) ++ s.inRing.map Element.pBufStart)).Perm
    ((List.range s.got).map (· + 1))
  queue : ∀ p ∈ s.queue, clearCtrlElem p.elem = true
  ring : ∀ e ∈ s.inRing, clearCtrlElem e = true

/-- The condition on an action: a message that is sent is refused by the callee, or it gets into the queue and the
    task is notified, or it does not get into the queue and the sender leaves it to the callee to free it. -/
def Owned (size : ℕ) (_ : Messages) : MessageAct → Prop
  | .send len info frees queued notified =>
    (info = configInfoInvalid ∨ configInfoMax ≤ info) ∨ size < len ∨
      (queued = true ∧ notified = true ∧ len ≠ 0) ∨ (queued = false ∧ frees = false)
  | _ => True

instance (size : ℕ) (s : Messages) : ∀ a, Decidable (Owned size s a)
  | .send _ _ _ _ _ => inferInstanceAs (Decidable (_ ∨ _ ∨ _ ∨ _))
  | .task | .host _ | .clear => inferInstanceAs (Decidable True)

end Messages

/-! ### The ring -/

namespace F2a

variable {b n : ℕ} {s : F2a}

theorem attach_attached (s : F2a) (p : Packet) :
    (s.attach p).cleared = s.cleared ∧
    (s.attach p).attached = if (s.ring.f2aPktAttach p.elem).1 then s.attached ++ [p.elem] else s.attached :=
  ⟨rfl, rfl⟩

theorem host_attached (s : F2a) (k : ℕ) : (s.host k).attached = s.attached ∧ (s.host k).cleared = s.cleared := by
  rw [F2a.host]
  split <;> exact ⟨rfl, rfl⟩

/-- A statement of the clearing thread clears nothing, or the first message that is not cleared. -/
theorem Inv.clear_cases (h : Inv b n False s) (ok : Bool) :
    (s.clear ok).attached = s.attached ∧
    ((s.clear ok).cleared = s.cleared ∨
      ∃ e t, s.attached.drop s.cleared.length = e :: t ∧ (s.clear ok).cleared = s.cleared ++ [e]) := by
  have hp := h.place
  rw [F2a.clear]
  cases hc : s.call with
  | idle => exact ⟨rfl, .inl rfl⟩
  | gotRead r => exact ⟨rfl, .inl rfl⟩
  | gotWrite r w =>
    dsimp only
    split <;> exact ⟨rfl, .inl rfl⟩
  | loop idx =>
    rw [hc] at hp
    obtain ⟨rfl, hm⟩ := hp
    dsimp only
    split
    · obtain ⟨hlt, hget⟩ := List.getElem?_eq_some_iff.mp (h.head hm).1
      refine ⟨rfl, .inr ⟨_, s.attached.drop (s.cleared.length + 1), ?_, rfl⟩⟩
      rw [List.drop_eq_getElem_cons hlt, hget]
    · exact ⟨rfl, .inl rfl⟩
  | next idx =>
    dsimp only
    split <;> exact ⟨rfl, .inl rfl⟩
  | leave idx => exact ⟨rfl, .inl rfl⟩
  | stored =>
    dsimp only
    split <;> exact ⟨rfl, .inl rfl⟩
  | drop => exact ⟨rfl, .inl rfl⟩

end F2a

/-! ### The buffers -/

namespace Messages

variable {b n size : ℕ} {s : Messages}

theorem inRing_attach (h : s.ring.Inv b n False) (p : Packet) (got : ℕ) (q : List Packet) (f : List ℕ) :
    inRing ⟨got, q, s.ring.attach p, f⟩ =
      if (s.ring.ring.f2aPktAttach p.elem).1 then s.inRing ++ [p.elem] else s.inRing := by
  obtain ⟨hc, ha⟩ := s.ring.attach_attached p
  simp only [inRing, hc, ha]
  split
  · exact List.drop_append_of_le_length (h.cleared_le.trans h.read_le)
  · rfl

/-- The ring task moves a message on, or frees it. -/
theorem Accounted.task (hr : s.ring.Inv b n False) (h : s.Accounted) : s.task.Accounted := by
  obtain ⟨got, queue, ring, freed⟩ := s
  cases queue with
  | nil => exact h
  | cons p q =>
  change Accounted ⟨got, q, ring.attach p,
    if (ring.ring.f2aPktAttach p.elem).1 then freed else freed ++ [p.elem.pBufStart]⟩
  have hring := inRing_attach (s := ⟨got, p :: q, ring, freed⟩) hr p got q
    (if (ring.ring.f2aPktAttach p.elem).1 then freed else freed ++ [p.elem.pBufStart])
  dsimp only at hring
  have hpq : clearCtrlElem p.elem = true := h.queue p List.mem_cons_self
  have honce := List.perm_iff_count.mp h.once
  simp only [List.count_append, List.map_cons, List.count_cons] at honce
  refine ⟨List.perm_iff_count.mpr fun a => ?_, fun x hx => h.queue x (List.mem_cons_of_mem _ hx), ?_⟩
  · rw [hring]
    dsimp only
    rw [← honce a]
    by_cases hok : (ring.ring.f2aPktAttach p.elem).1 = true <;>
      simp only [hok, if_true, if_false, Bool.false_eq_true, List.count_append, List.map_append, List.map_cons,
        List.map_nil, List.count_cons, List.count_nil, inRing] <;> omega
  · intro e he
    rw [hring] at he
    split at he
    · rcases List.mem_append.mp he with he | he
      · exact h.ring e he
      · rw [List.mem_singleton.mp he]
        exact hpq
    · exact h.ring e he

/-- What is cleared leaves the ring and is freed. -/
theorem Accounted.clear (hr : s.ring.Inv b n False) (h : s.Accounted) : s.clear.Accounted := by
  obtain ⟨ha, hcases⟩ := hr.clear_cases s.clearing
  have hc := hr.cleared_le.trans hr.read_le
  rcases hcases with hcl | ⟨e, t, hdrop, hcl⟩
  · have hring : s.clear.inRing = s.inRing := by simp only [Messages.clear, inRing, ha, hcl]
    refine ⟨?_, h.queue, by rw [hring]; exact h.ring⟩
    rw [hring]
    simpa [Messages.clear, hcl] using h.once
  · have hold : s.inRing = e :: t := hdrop
    have hring : s.clear.inRing = t := by
      simp only [Messages.clear, inRing, ha, hcl, List.length_append, List.length_cons, List.length_nil]
      rw [← List.drop_drop, hdrop, List.drop_one, List.tail_cons]
    refine ⟨?_, h.queue, fun x hx => h.ring x ?_⟩
    · have honce := List.perm_iff_count.mp h.once
      simp only [hold, List.count_append, List.map_cons, List.count_cons] at honce
      refine List.perm_iff_count.mpr fun a => ?_
      rw [hring]
      simp only [Messages.clear, hcl, List.drop_left, List.map_cons, List.map_nil, List.count_append, List.count_cons,
        List.count_nil]
      rw [← honce a]
      omega
    · rw [hring] at hx
      rw [hold]
      exact List.mem_cons_of_mem _ hx

theorem Accounted.host (h : s.Accounted) (k : ℕ) : Accounted { s with ring := s.ring.host k } := by
  obtain ⟨ha, hc⟩ := s.ring.host_attached k
  have hring : inRing { s with ring := s.ring.host k } = s.inRing := by simp only [inRing, ha, hc]
  exact ⟨by rw [hring]; exact h.once, h.queue, by rw [hring]; exact h.ring⟩

/-! ### Sending -/

/-- The places of the new buffer, after those of the others. -/
theorem send_once (h : s.Accounted) (r : Sent) :
    (s.freed ++ r.freed ++ (((s.queue ++ r.queued).map fun p => p.elem.pBufStart) ++ s.inRing.map Element.pBufStart)).Perm
      ((List.range (s.got + 1)).map (· + 1)) ↔
    (r.freed ++ r.queued.map fun p => p.elem.pBufStart).Perm [s.got + 1] := by
  have honce := List.perm_iff_count.mp h.once
  rw [List.range_succ, List.map_append, List.perm_iff_count, List.perm_iff_count]
  refine forall_congr' fun a => ?_
  have := honce a
  simp only [List.count_append, List.map_append, List.map_cons, List.map_nil] at this ⊢
  omega

/-- A message is sent as it should be if and only if its buffer is then in one place. -/
theorem Accounted.send_iff (h : s.Accounted) (len info : ℕ) (frees queued notified : Bool) :
    (s.send size len info frees queued notified).Accounted ↔
      Owned size s (.send len info frees queued notified) := by
  set r := sendWith frees (ringifSendConfigPkt size (message s.got len info) queued notified)
    (message s.got len info).elem.pBuf with hr
  have hiff : (s.send size len info frees queued notified).Accounted ↔
      (r.freed ++ r.queued.map fun p => p.elem.pBufStart).Perm [s.got + 1] ∧
        ∀ p ∈ r.queued, clearCtrlElem p.elem = true := by
    constructor
    · intro hs
      exact ⟨(send_once h r).mp hs.once, fun p hp => hs.queue p (List.mem_append_right _ hp)⟩
    · rintro ⟨hp, hq⟩
      refine ⟨(send_once h r).mpr hp, fun p hp => ?_, h.ring⟩
      rcases List.mem_append.mp hp with hp | hp
      · exact h.queue p hp
      · exact hq p hp
  rw [hiff, Owned, hr]
  clear hiff hr r
  by_cases hinfo : info = configInfoInvalid ∨ configInfoMax ≤ info
  · simp [hinfo, message, ringifSendConfigPkt, sendWith]
  by_cases hlen : size < len
  · simp [hinfo, hlen, message, ringifSendConfigPkt, sendWith]
  cases queued <;> cases notified <;> cases frees <;>
    simp [hinfo, hlen, message, ringifSendConfigPkt, sendWith, clearCtrlElem]

/-! ### Runs -/

theorem accounted_create (n r : ℕ) : (create n r).Accounted :=
  ⟨.refl _, fun _ hp => absurd hp List.not_mem_nil, fun _ he => absurd he List.not_mem_nil⟩

theorem act_inv (h : s.ring.Inv b n False) (a : MessageAct) : (s.act size a).ring.Inv b n False := by
  cases a with
  | send len info frees queued notified => exact h
  | task =>
    obtain ⟨got, queue, ring, freed⟩ := s
    cases queue with
    | nil => exact h
    | cons p q => exact h.attach p
  | host k => exact h.host k
  | clear => exact h.clear _

theorem Accounted.act_iff (hr : s.ring.Inv b n False) (h : s.Accounted) (a : MessageAct) :
    (s.act size a).Accounted ↔ Owned size s a := by
  cases a with
  | send len info frees queued notified => exact h.send_iff len info frees queued notified
  | task => exact iff_of_true (h.task hr) trivial
  | host k => exact iff_of_true (h.host k) trivial
  | clear => exact iff_of_true (h.clear hr) trivial

/-- In a run of senders, the ring task and the host, every buffer is at all times freed once and no more, or still
    in the queue or the ring, if and only if every message sent meets the condition. -/
theorem ctrl_bufs_freed_once_iff {n : ℕ} (hn : 2 ≤ n) (size r : ℕ) (as : List MessageAct) :
    Along (act size) (fun s a => (s.act size a).Accounted) (create n r) as ↔
      Along (act size) (Owned size) (create n r) as := by
  refine Along.iff (I := fun s => s.ring.Inv (F2a.create n r).ring.writeIdx n False ∧ s.Accounted)
    ?_ ?_ ⟨F2a.inv_create hn r, accounted_create n r⟩ (along_true _ as)
  · rintro s a ⟨hi, ha⟩ - hq
    exact ⟨act_inv hi a, (ha.act_iff hi a).mpr hq⟩
  · rintro s a ⟨hi, ha⟩ -
    exact ha.act_iff hi a

/-- Two messages go through a ring of two elements; the second one finds it full and is freed by the task. The
    host reads the first one, and it is freed. -/
theorem ctrl_bufs_freed_once_two :
    let as : List MessageAct := [.send 12 configInfoIpConnect true true true, .send 12 configInfoIpConnect true true true,
      .task, .task, .host 1, .clear, .clear, .clear, .clear]
    Along (act 256) (fun s a => (s.act 256 a).Accounted) (create 2 0) as ∧ (as.foldl (act 256) (create 2 0)).freed = [2, 1] := by
  intro as
  exact ⟨(ctrl_bufs_freed_once_iff (by decide) 256 0 as).mpr (by decide), by decide +kernel⟩

/-- A sender whose message does not get into the queue: the buffer is freed twice. One whose notification fails: it
    is freed twice and in the queue. -/
theorem ctrl_buf_freed_twice :
    (let s := (create 16 0).act 256 (.send 12 configInfoIpConnect true false true)
    s.freed = [1, 1] ∧ ¬ s.Accounted) ∧
    (let s := (create 16 0).act 256 (.send 12 configInfoIpConnect true true false)
    s.freed = [1, 1] ∧ (s.queue.map fun p => p.elem.pBufStart) = [1] ∧ ¬ s.Accounted) := by
  have h := accounted_create 16 0
  refine ⟨⟨rfl, ?_⟩, rfl, rfl, ?_⟩
  · rw [h.act_iff (F2a.inv_create (by decide) 0)]
    decide
  · rw [h.act_iff (F2a.inv_create (by decide) 0)]
    decide

end Messages

end Qcc730.Ring
