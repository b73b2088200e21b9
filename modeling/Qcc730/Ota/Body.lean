import Qcc730.Ota.Http

/-! What an HTTP download delivers.

    In plain mode the bytes returned, queued and still to be handed over make up the body, until a piece is given up;
    in range mode the bytes returned and queued are the first ranges of the body, and the buffer holds the part of
    the response under way that has been handed over. The code relies on five things: that no empty piece comes in
    plain mode once a piece has been gathered, since the callback then queues that piece again; that in plain mode a
    piece finds memory; that the node a callback links another to is still in the queue; that a range is not answered
    twice; and that a response to a range is handed over whole once it has begun. -/

namespace Qcc730.Ota.Http

open Qcc730.Lib

theorem Request.length_slice {body : Bytes} {r : Request} (h : r.offset + r.len ≤ body.length) :
    (r.slice body).length = r.len := by
  rw [Request.slice, List.length_take, List.length_drop]
  omega

/-- The range that follows a prefix extends it. -/
theorem Request.append_slice {body d : Bytes} {r : Request} (hd : d <+: body) (hr : r.offset = d.length) :
    d ++ r.slice body <+: body := by
  obtain ⟨t, rfl⟩ := hd
  rw [Request.slice, hr, List.drop_left]
  exact (List.prefix_append_right_inj d).mpr (List.take_prefix ..)

theorem drop_of_take_eq_nil {l : Bytes} {n : ℕ} (h : l.take n = []) : l.drop n = l := by
  have happend := List.take_append_drop n l
  rw [h, List.nil_append] at happend
  exact happend

namespace Machine

variable {body : Bytes} {m : Machine}

/-! ### What the code relies on -/

/-- The piece of the response under way comes in time. -/
def Timely (m : Machine) (n : ℕ) (finished nodeOk bufOk : Bool) : Option (Request × Bytes) → Prop
  | none => True
  | some (r, rest) =>
    (m.sess.range = true → finished = true → r.offset = m.delivered.length) ∧
    (m.sess.range = false → rest.take n = [] → m.sess.tempOffset = 0) ∧
    (m.sess.range = false → rest.take n ≠ [] → nodeOk = true ∧ bufOk = true ∨ rest.drop n = [])

instance {n : ℕ} {finished nodeOk bufOk : Bool} : (o : Option (Request × Bytes)) →
    Decidable (m.Timely n finished nodeOk bufOk o)
  | none => inferInstanceAs (Decidable True)
  | some _ => inferInstanceAs (Decidable (_ ∧ _ ∧ _))

/-- The callback links its node to the last one of the queue. One that may be lost, in range mode or without bytes, it
    may link to the node that is being taken out and is not yet freed. -/
def Linkable (m : Machine) : Callback → Prop
  | .tested node false =>
    m.sess.queue.rear = .last ∨
      m.sess.queue.rear = .stale ∧ m.reader.Taking ∧ (m.sess.range = true ∨ node = [])
  | _ => True

instance : (c : Callback) → Decidable (m.Linkable c)
  | .tested _ false => inferInstanceAs (Decidable (_ ∨ _ ∧ _ ∧ _))
  | .tested _ true => inferInstanceAs (Decidable True)
  | .stored _ _ => inferInstanceAs (Decidable True)
  | .idle => inferInstanceAs (Decidable True)

/-- A step that keeps to what the download needs. A response to a range ends only if its range follows what is
    returned and queued, and does not break off once it has begun. In plain mode an empty piece comes only while
    nothing is gathered, and a piece with data finds memory unless it is the last. The node that the callback links
    another to has not been freed since the test of `rear`, and in plain mode is not being taken out. -/
def Orderly (m : Machine) : Act → Prop
  | .piece n finished nodeOk bufOk => m.Timely n finished nodeOk bufOk m.inFlight
  | .store => m.Linkable m.callback
  | .broken => m.sess.range = true → m.sess.recvCount = 0
  | _ => True

instance : (a : Act) → Decidable (m.Orderly a)
  | .piece n finished nodeOk bufOk => inferInstanceAs (Decidable (m.Timely n finished nodeOk bufOk m.inFlight))
  | .store => inferInstanceAs (Decidable (m.Linkable m.callback))
  | .broken => inferInstanceAs (Decidable (_ → _))
  | .call .. => inferInstanceAs (Decidable True)
  | .reader .. => inferInstanceAs (Decidable True)
  | .answer => inferInstanceAs (Decidable True)
  | .lose => inferInstanceAs (Decidable True)
  | .notFound => inferInstanceAs (Decidable True)

/-! ### The reader -/

/-- The next range to be requested. -/
def nextRange (m : Machine) : Request :=
  ⟨m.sess.rangeOffset, min (m.sess.totalLen - m.sess.rangeOffset) otaChunkSize⟩

theorem getWithOffset_eq (m : Machine) :
    m.getWithOffset otaChunkSize = { m with pending := m.pending ++ [m.nextRange] } := by
  simp only [getWithOffset, nextRange]
  congr 4
  split <;> omega

/-- A pass through the loop may send the request again, in range mode, and changes nothing else but the number of
    retries. -/
theorem poll_eq (m : Machine) (expired sent : Bool) : ∃ k r ps,
    m.poll expired sent = { m with
      sess := { m.sess with retryCount := k }, reader := r, pending := m.pending ++ ps } ∧
    (r = .idle ∨ r = m.reader) ∧ (ps = [] ∨ m.sess.range = true ∧ ps = [m.nextRange]) := by
  have hleave : ∀ k, ∃ k' r ps, ({ m with sess := { m.sess with retryCount := k }, reader := .idle } : Machine) =
      { m with sess := { m.sess with retryCount := k' }, reader := r, pending := m.pending ++ ps } ∧
      (r = .idle ∨ r = m.reader) ∧ (ps = [] ∨ m.sess.range = true ∧ ps = [m.nextRange]) := fun k =>
    ⟨k, .idle, [], by simp, .inl rfl, .inl rfl⟩
  rw [poll]
  split
  · split
    · rename_i hrange
      simp only []
      split
      · split
        · have hlen : (if m.sess.totalLen - m.sess.rangeOffset <
              (if m.sess.totalLen - m.sess.rangeOffset < otaChunkSize then m.sess.totalLen - m.sess.rangeOffset
                else otaChunkSize) then m.sess.totalLen - m.sess.rangeOffset
              else if m.sess.totalLen - m.sess.rangeOffset < otaChunkSize then m.sess.totalLen - m.sess.rangeOffset
                else otaChunkSize) = min (m.sess.totalLen - m.sess.rangeOffset) otaChunkSize := by
            repeat' split
            all_goals omega
          simp only [getWithOffset, hlen]
          split
          · exact ⟨_, .idle, [m.nextRange], rfl, .inl rfl, .inr ⟨hrange, rfl⟩⟩
          · exact ⟨_, m.reader, [m.nextRange], rfl, .inr rfl, .inr ⟨hrange, rfl⟩⟩
        · exact hleave _
      · exact hleave 0
    · exact hleave m.sess.retryCount
  · split
    · exact hleave m.sess.retryCount
    · exact ⟨m.sess.retryCount, m.reader, [], by simp, .inr rfl, .inl rfl⟩

/-- What a step of the reader does: it waits on, sends a request again in range mode, takes the front of the queue,
    or returns what it has taken. -/
theorem readerStep_cases (m : Machine) (expired sent : Bool) :
    (∃ k r ps, m.readerStep expired sent = { m with
        sess := { m.sess with retryCount := k }, reader := r, pending := m.pending ++ ps } ∧
      m.reader.inHand = [] ∧ (r = .idle ∨ r = m.reader) ∧
      (ps = [] ∨ m.sess.range = true ∧ ps = [m.nextRange] ∧ ∃ n, m.reader = .waiting n)) ∨
    (∃ b rest, m.sess.queue.front = b :: rest ∧ m.reader.inHand = [] ∧ m.readerStep expired sent = { m with
        sess := { m.sess with queue := ⟨rest, if rest = [] then .stale else m.sess.queue.rear⟩ }
        reader := .unlinked b }) ∨
    ∃ out, m.reader = .unlinked out ∧ m.readerStep expired sent = { m with
      sess := { m.sess with
        queue := if m.sess.queue.front = [] then ⟨[], .null⟩ else m.sess.queue
        rangeOffset := u32 (m.sess.rangeOffset + out.length)
        retryCount := 0 }
      reader := .idle
      returned := m.returned ++ out } := by
  rw [readerStep]
  cases hr : m.reader with
  | idle =>
    exact .inl ⟨m.sess.retryCount, .idle, [], by simp [← hr], rfl, .inl rfl, .inl rfl⟩
  | waiting n =>
    have hhand : (Reader.waiting n).inHand = [] := rfl
    have hleave : ∃ k r ps, ({ m with reader := .idle } : Machine) = { m with
        sess := { m.sess with retryCount := k }, reader := r, pending := m.pending ++ ps } ∧
        (Reader.waiting n).inHand = [] ∧ (r = .idle ∨ r = .waiting n) ∧
        (ps = [] ∨ m.sess.range = true ∧ ps = [m.nextRange] ∧ ∃ n', Reader.waiting n = .waiting n') :=
      ⟨m.sess.retryCount, .idle, [], by simp, hhand, .inl rfl, .inl rfl⟩
    cases hq : m.sess.queue.front with
    | nil =>
      obtain ⟨k, r, ps, hpoll, hreader, hps⟩ := m.poll_eq expired sent
      exact .inl ⟨k, r, ps, hpoll, hhand, hr ▸ hreader, hps.imp_right fun hps => ⟨hps.1, hps.2, n, rfl⟩⟩
    | cons b rest =>
      simp only []
      split
      · exact .inl hleave
      · split
        · exact .inl hleave
        · exact .inr (.inl ⟨b, rest, rfl, hhand, rfl⟩)
  | unlinked out => exact .inr (.inr ⟨out, rfl, rfl⟩)

/-- The reader's steps leave the bytes delivered as they are. -/
theorem delivered_readerStep (m : Machine) (expired sent : Bool) :
    (m.readerStep expired sent).delivered = m.delivered := by
  obtain ⟨k, r, ps, he, hhand, hr, -⟩ | ⟨b, rest, hq, hhand, he⟩ | ⟨out, hr, he⟩ := m.readerStep_cases expired sent
  · have hhand' : r.inHand = [] := by
      rcases hr with rfl | rfl
      · rfl
      · exact hhand
    rw [he]
    simp only [delivered, hhand, hhand']
  · rw [he]
    simp only [delivered, hhand, hq, List.append_nil, List.flatten_cons]
    rw [← List.append_assoc]
    rfl
  · rw [he]
    simp only [delivered, hr, Reader.inHand, List.append_nil]
    split
    · rename_i hq
      rw [hq]
    · rfl

/-! ### The queue -/

/-- The bytes delivered, and those of the callback's node. -/
def handed (m : Machine) : Bytes := m.delivered ++ m.callback.inHand

/-- How the queue, the reader and the callback fit together. While the callback fills an empty queue the reader has
    nothing to take. -/
structure Linked (m : Machine) : Prop where
  rear : m.sess.queue.rear = .null → m.sess.queue.front = []
  taken : ∀ out, m.reader = .unlinked out → m.sess.queue.rear ≠ .null
  filling : ∀ node, m.callback = .tested node true ∨ m.callback = .stored node true →
    m.sess.queue.front = [] ∧ ∀ out, m.reader ≠ .unlinked out
  stored : ∀ node, m.callback = .stored node true → m.sess.queue.rear ≠ .null

theorem handed_readerStep (m : Machine) (expired sent : Bool) : (m.readerStep expired sent).handed = m.handed := by
  have hc : (m.readerStep expired sent).callback = m.callback := by
    obtain ⟨k, r, ps, he, -⟩ | ⟨b, rest, -, -, he⟩ | ⟨out, -, he⟩ := m.readerStep_cases expired sent <;> rw [he]
  rw [handed, handed, delivered_readerStep, hc]

theorem Linked.init (range : Bool) (body : Bytes) : (Machine.init range body).Linked where
  rear := fun _ => rfl
  taken := fun out h => by simp [Machine.init] at h
  filling := fun node h => by simp [Machine.init] at h
  stored := fun node h => by simp [Machine.init] at h

theorem Linked.congr {m' : Machine} (h : m.Linked) (hq : m'.sess.queue = m.sess.queue) (hc : m'.callback = m.callback)
    (hr : ∀ out, m'.reader = .unlinked out → m.reader = .unlinked out) : m'.Linked where
  rear := by
    rw [hq]
    exact h.rear
  taken := fun out ho => by
    rw [hq]
    exact h.taken out (hr out ho)
  filling := fun node hn => by
    rw [hc] at hn
    rw [hq]
    exact ⟨(h.filling node hn).1, fun out ho => (h.filling node hn).2 out (hr out ho)⟩
  stored := by
    rw [hq, hc]
    exact h.stored

theorem Linked.reader (expired sent : Bool) (h : m.Linked) : (m.readerStep expired sent).Linked := by
  obtain ⟨k, r, ps, he, -, hr, -⟩ | ⟨b, rest, hq, -, he⟩ | ⟨out, hout, he⟩ := m.readerStep_cases expired sent <;> rw [he]
  · refine h.congr rfl rfl fun out ho => ?_
    rcases hr with rfl | rfl
    · cases ho
    · exact ho
  · -- there was a node to take, so the callback is not filling an empty queue
    have hne : m.sess.queue.rear ≠ .null := fun hn => by simp [h.rear hn] at hq
    have hnot : ∀ node, ¬ (m.callback = .tested node true ∨ m.callback = .stored node true) := fun node hn => by
      simp [(h.filling node hn).1] at hq
    refine ⟨fun hn => ?_, fun _ _ => ?_, fun node hn => absurd hn (hnot node),
      fun node hn => absurd (.inr hn) (hnot node)⟩
    · simp only at hn
      split at hn
      · assumption
      · exact absurd hn hne
    · simp only
      split
      · simp
      · exact hne
  · have hnot : ∀ node, ¬ (m.callback = .tested node true ∨ m.callback = .stored node true) := fun node hn =>
      (h.filling node hn).2 out hout
    refine ⟨?_, fun _ ho => by simp at ho, fun node hn => absurd hn (hnot node),
      fun node hn => absurd (.inr hn) (hnot node)⟩
    simp only
    split
    · exact fun _ => rfl
    · exact h.rear

/-- The callback's next store puts its node into the queue, unless the node it is linked to has left it. -/
theorem Linked.store (h : m.Linked) : m.store.Linked ∧ (m.store.handed = m.handed ∨
    ∃ node, m.callback = .tested node false ∧ m.sess.queue.rear ≠ .last ∧ m.store.handed = m.delivered) := by
  rw [Machine.store]
  cases hc : m.callback with
  | idle =>
    refine ⟨h.congr rfl hc.symm fun _ ho => ho, .inl ?_⟩
    rw [handed, handed, hc]
    rfl
  | tested node null =>
    cases null with
    | true =>
      obtain ⟨hnil, hidle⟩ := h.filling node (.inl hc)
      refine ⟨⟨fun hn => by simp [Callback.store] at hn, fun out ho => absurd ho (hidle out), fun _ _ => ⟨hnil, hidle⟩,
        fun _ _ => by simp [Callback.store]⟩, .inl ?_⟩
      rw [handed, handed, hc]
      rfl
    | false =>
      refine ⟨⟨fun hn => ?_, h.taken, fun _ hn => by simp [Callback.store] at hn, fun _ hn => by
        simp [Callback.store] at hn⟩, ?_⟩
      · simp only [Callback.store] at hn ⊢
        rw [hn, if_neg (by simp)]
        exact h.rear hn
      · by_cases hl : m.sess.queue.rear = .last
        · refine .inl ?_
          simp only [handed, delivered, hc, Callback.store, Callback.inHand, if_pos hl, List.flatten_append,
            List.flatten_singleton, List.append_nil, List.append_assoc]
        · refine .inr ⟨node, rfl, hl, ?_⟩
          simp only [handed, delivered, Callback.store, Callback.inHand, if_neg hl, List.append_nil]
  | stored node null =>
    cases null with
    | true =>
      obtain ⟨hnil, hidle⟩ := h.filling node (.inr hc)
      have hne := h.stored node hc
      refine ⟨⟨fun hn => ?_, fun out ho => absurd ho (hidle out), fun _ hn => by simp [Callback.store] at hn,
        fun _ hn => by simp [Callback.store] at hn⟩, .inl ?_⟩
      · simp [Callback.store, hne] at hn
      · simp only [handed, delivered, hc, Callback.store, Callback.inHand, hnil, List.flatten_nil, List.flatten_singleton,
          List.append_nil]
    | false =>
      refine ⟨⟨fun hn => ?_, fun _ _ => ?_, fun _ hn => by simp [Callback.store] at hn, fun _ hn => by
        simp [Callback.store] at hn⟩, .inl ?_⟩
      · simp only [Callback.store] at hn
        split at hn <;> simp at hn
      · simp only [Callback.store]
        split <;> simp
      · rw [handed, handed, hc]
        rfl

end Machine

/-! ### The callback -/

theorem flush_eq (s : Session) (nodeOk bufOk : Bool) :
    flush s nodeOk bufOk = ({ s with recvCount := 0 },
      if nodeOk = true ∧ bufOk = true then .tested (s.temp.getD []) (decide (s.queue.rear = .null)) else .idle) := by
  rw [flush]
  cases nodeOk <;> cases bufOk <;> rfl

theorem flush_inHand (s : Session) (nodeOk bufOk : Bool) :
    (flush s nodeOk bufOk).2.inHand = if nodeOk = true ∧ bufOk = true then s.temp.getD [] else [] := by
  rw [flush_eq]
  simp only
  split <;> rfl

/-- What the callback has done by its test of `rear`: it has not touched the queue, nor made a store. -/
structure Session.Tested (s : Session) (p : Session × Callback) : Prop where
  queue : p.1.queue = s.queue
  fresh : ∀ node, p.2 ≠ .stored node true
  null : ∀ node, p.2 = .tested node true → s.queue.rear = .null

theorem flush_tested (s : Session) (nodeOk bufOk : Bool) : s.Tested (flush s nodeOk bufOk) := by
  rw [flush_eq]
  refine ⟨rfl, fun node => ?_, fun node => ?_⟩ <;> simp only <;> split
  · simp
  · simp
  · intro heq
    injection heq with _ hnull
    exact of_decide_eq_true hnull
  · simp

theorem httpClientCbOta_tested (s : Session) (piece : Bytes) (finished nodeOk bufOk : Bool) :
    s.Tested (httpClientCbOta s piece finished nodeOk bufOk) := by
  have hidle : ∀ s' : Session, s'.queue = s.queue → s.Tested (s', .idle) := fun s' hq =>
    ⟨hq, fun node => by simp, fun node h => by simp at h⟩
  have hflush : ∀ s' : Session, s'.queue = s.queue →
      s.Tested (if finished = true ∨ s'.range = false then flush s' nodeOk bufOk else (s', .idle)) := by
    intro s' hq
    split
    · obtain ⟨hq', hfresh, hnull⟩ := flush_tested s' nodeOk bufOk
      exact ⟨hq'.trans hq, hfresh, fun node hn => hq ▸ hnull node hn⟩
    · exact hidle s' hq
  rw [httpClientCbOta]
  by_cases hp : piece = []
  · rw [if_neg (not_not.mpr hp)]
    exact hflush s rfl
  rw [if_pos hp]
  cases s.temp with
  | none => exact hidle s rfl
  | some b =>
    simp only []
    generalize (if s.recvCount = 0 then [] else b) = held
    split
    · exact hidle _ rfl
    · exact hflush { s with temp := some (held ++ piece), recvCount := (s.recvCount + 1) % 65536 } rfl

namespace Machine

variable {body : Bytes} {m : Machine}

theorem Linked.receive (h : m.Linked) (r : Request) (rest : Bytes) (n : ℕ) (finished nodeOk bufOk : Bool) :
    (m.receive r rest n finished nodeOk bufOk).Linked := by
  obtain ⟨hq, hfresh, hnull⟩ := httpClientCbOta_tested m.sess (rest.take n) finished nodeOk bufOk
  rw [Machine.receive]
  refine ⟨?_, fun out ho => ?_, fun node hn => ?_, fun node hn => absurd hn (hfresh node)⟩
  · rw [hq]
    exact h.rear
  · rw [hq]
    exact h.taken out ho
  · have hn := hnull node (hn.resolve_right (hfresh node))
    rw [hq]
    exact ⟨h.rear hn, fun out ho => h.taken out ho hn⟩

theorem Linked.call (h : m.Linked) (bufLen : ℕ) (sent : Bool) : (m.call body bufLen sent).Linked := by
  rw [Machine.call]
  split
  · split
    · exact h.congr rfl rfl fun _ ho => ho
    · split
      · exact h.congr rfl rfl fun _ ho => by simp at ho
      · exact h
  · split
    · split
      · exact h.congr rfl rfl fun _ ho => by simp at ho
      · exact h
    · exact h.congr rfl rfl fun _ ho => by simp at ho

/-- Every step. -/
theorem Linked.step (h : m.Linked) (a : Act) : (m.step body a).Linked := by
  have hsame : ∀ m' : Machine, m'.sess.queue = m.sess.queue → m'.callback = m.callback → m'.reader = m.reader →
      m'.Linked := fun m' hq hc hr => h.congr hq hc fun _ ho => hr ▸ ho
  cases a with
  | call bufLen sent =>
    rw [Machine.step]
    split
    · exact h.call bufLen sent
    · exact h
  | reader expired sent => exact h.reader expired sent
  | answer =>
    rw [Machine.step]
    split
    · split
      · exact hsame _ rfl rfl rfl
      · exact h
    · exact h
  | lose => exact hsame _ rfl rfl rfl
  | notFound =>
    rw [Machine.step]
    split
    · split
      · exact hsame _ rfl rfl rfl
      · exact h
    · exact h
  | piece n finished nodeOk bufOk =>
    rw [Machine.step]
    split
    · exact h
    · split
      · exact h
      · exact h.receive ..
  | store => exact h.store.1
  | broken =>
    rw [Machine.step]
    split
    · exact hsame _ rfl rfl rfl
    · exact h

/-! ### Plain mode -/

/-- The body is requested once. What has been delivered or is in the callback's node and what is still to be handed over
    make up the body, unless the buffer is gone or there is nothing more to come. -/
structure Plain (body : Bytes) (m : Machine) : Prop where
  mode : m.sess.range = false
  count : m.sess.recvCount = 0
  handed : m.handed <+: body
  fresh : m.sess.gettingStarted = false → m.pending = [] ∧ m.inFlight = none ∧ m.handed = []
  pending : m.pending ≠ [] → m.pending = [⟨0, body.length⟩] ∧ m.inFlight = none ∧ m.handed = []
  rest : ∀ r rest, m.inFlight = some (r, rest) → m.sess.temp = none ∨ rest = [] ∨ m.handed ++ rest = body
  zeros : m.zeros = []

theorem Plain.init (body : Bytes) : (Machine.init false body).Plain body where
  mode := rfl
  count := rfl
  handed := List.nil_prefix
  fresh := fun _ => ⟨rfl, rfl, rfl⟩
  pending := fun h => absurd rfl h
  rest := fun r rest h => by simp [Machine.init] at h
  zeros := rfl

/-- It is about the response, the requests and the bytes delivered or in the callback's node. -/
theorem Plain.congr {m' : Machine} (h : m.Plain body) (hhanded : m'.handed = m.handed)
    (hmode : m'.sess.range = m.sess.range) (hcount : m'.sess.recvCount = m.sess.recvCount)
    (hstarted : m'.sess.gettingStarted = m.sess.gettingStarted) (htemp : m'.sess.temp = m.sess.temp)
    (hpending : m'.pending = m.pending) (hflight : m'.inFlight = m.inFlight) (hzeros : m'.zeros = m.zeros) :
    m'.Plain body where
  mode := hmode.trans h.mode
  count := hcount.trans h.count
  handed := by
    rw [hhanded]
    exact h.handed
  fresh := by
    rw [hstarted, hpending, hflight, hhanded]
    exact h.fresh
  pending := by
    rw [hpending, hflight, hhanded]
    exact h.pending
  rest := by
    rw [hflight, htemp, hhanded]
    exact h.rest
  zeros := hzeros.trans h.zeros

theorem Plain.reader {expired sent : Bool} (h : m.Plain body) : (m.readerStep expired sent).Plain body := by
  have hhanded := m.handed_readerStep expired sent
  obtain ⟨k, r, ps, he, -, -, hps⟩ | ⟨b, rest, -, -, he⟩ | ⟨out, -, he⟩ := m.readerStep_cases expired sent
  · have hps : ps = [] := hps.resolve_right fun hps => by simp [h.mode] at hps
    rw [hps, List.append_nil] at he
    rw [he] at hhanded ⊢
    exact h.congr hhanded rfl rfl rfl rfl rfl rfl rfl
  · rw [he] at hhanded ⊢
    exact h.congr hhanded rfl rfl rfl rfl rfl rfl rfl
  · rw [he] at hhanded ⊢
    exact h.congr hhanded rfl rfl rfl rfl rfl rfl rfl

/-- A node with bytes is linked to the last one of the queue. -/
theorem Plain.store (h : m.Plain body) (hl : m.Linked) (hok : m.Linkable m.callback) : m.store.Plain body := by
  have hhanded : m.store.handed = m.handed := by
    rcases hl.store.2 with heq | ⟨node, hc, hlast, heq⟩
    · exact heq
    rw [hc] at hok
    have hnil : node = [] := by
      obtain ⟨-, -, hlost⟩ := hok.resolve_left hlast
      exact hlost.resolve_left (by simp [h.mode])
    rw [heq, Machine.handed, hc, Callback.inHand, hnil, List.append_nil]
  exact h.congr hhanded rfl rfl rfl rfl rfl rfl rfl

end Machine

/-- The callback in plain mode: the piece goes to a new node, or is given up with the buffer. -/
theorem httpClientCbOta_plain {s : Session} {piece : Bytes} {finished nodeOk bufOk : Bool}
    (hmode : s.range = false) (hcount : s.recvCount = 0) :
    httpClientCbOta s piece finished nodeOk bufOk =
      if piece = [] then flush s nodeOk bufOk
      else if s.temp = none then (s, .idle)
      else if piece.length > otaChunkSize then ({ s with temp := none }, .idle)
      else flush { s with temp := some piece, recvCount := 1 } nodeOk bufOk := by
  rw [httpClientCbOta]
  by_cases hp : piece = []
  · simp [hp, hmode]
  · rw [if_pos hp, if_neg hp]
    cases ht : s.temp with
    | none => simp
    | some b => simp [hcount, hmode]

namespace Machine

variable {body : Bytes} {m : Machine}

/-- By its test of `rear` the callback has put the piece into a node, or there is none. -/
theorem Plain.tested {r : Request} {rest : Bytes} {n : ℕ} (finished : Bool) {s' : Session} {c : Callback} {b : Option Bytes}
    (h : m.Plain body) (hflight : m.inFlight = some (r, rest)) (hs : s' = { m.sess with recvCount := 0, temp := b })
    (hdel : m.delivered ++ c.inHand <+: body)
    (hrest : b = none ∨ rest.drop n = [] ∨ m.delivered ++ c.inHand ++ rest.drop n = body) :
    ({ m with
      sess := s', callback := c, inFlight := if finished then none else some (r, rest.drop n) } : Machine).Plain body := by
  have hq : s'.queue = m.sess.queue := by rw [hs]
  have hhanded : ({ m with
      sess := s', callback := c, inFlight := if finished then none else some (r, rest.drop n) } : Machine).handed =
      m.delivered ++ c.inHand := by
    simp only [Machine.handed, Machine.delivered, hq]
  refine ⟨?_, ?_, hhanded ▸ hdel, fun hf => ?_, fun hne => ?_, fun r' rest' heq => ?_, h.zeros⟩
  · rw [hs]
    exact h.mode
  · rw [hs]
  · rw [hs] at hf
    have hnone := (h.fresh hf).2.1
    simp [hflight] at hnone
  · have hnone := (h.pending hne).2.1
    simp [hflight] at hnone
  · rw [hhanded]
    simp only at heq
    split at heq
    · simp at heq
    · obtain ⟨rfl, rfl⟩ := Prod.mk.inj (Option.some.inj heq)
      rw [hs]
      exact hrest

theorem Plain.receive {r : Request} {rest : Bytes} {n : ℕ} {finished nodeOk bufOk : Bool} (h : m.Plain body)
    (hidle : m.callback = .idle) (hflight : m.inFlight = some (r, rest))
    (hok : m.Timely n finished nodeOk bufOk m.inFlight) :
    (m.receive r rest n finished nodeOk bufOk).Plain body := by
  rw [hflight] at hok
  obtain ⟨-, hempty, hdata⟩ := hok
  have hcount := h.count
  have hdel := h.handed
  have hrest := h.rest r rest hflight
  rw [Machine.handed, hidle, Callback.inHand_idle, List.append_nil] at hdel hrest
  have hnode : m.delivered ++ Callback.idle.inHand <+: body := by
    rw [Callback.inHand_idle, List.append_nil]
    exact hdel
  rw [Machine.receive, httpClientCbOta_plain h.mode hcount]
  by_cases hp : rest.take n = []
  · -- an empty piece queues an empty buffer
    have hnil : m.sess.temp.getD [] = [] := List.length_eq_zero_iff.mp (hempty h.mode hp)
    have hhand : (flush m.sess nodeOk bufOk).2.inHand = [] := by rw [flush_inHand, hnil, ite_self]
    rw [if_pos hp]
    refine h.tested finished hflight (b := m.sess.temp) (by rw [flush_eq]) ?_ ?_ <;> rw [hhand, List.append_nil]
    · exact hdel
    · rw [drop_of_take_eq_nil hp]
      exact hrest
  rw [if_neg hp]
  by_cases htemp : m.sess.temp = none
  · rw [if_pos htemp]
    exact h.tested finished hflight (b := none) (by rw [← htemp, ← hcount]) hnode (.inl rfl)
  rw [if_neg htemp]
  by_cases hlen : (rest.take n).length > otaChunkSize
  · rw [if_pos hlen]
    exact h.tested finished hflight (b := none) (by rw [← hcount]) hnode (.inl rfl)
  -- the piece goes to a node, unless there is no memory for it
  rw [if_neg hlen]
  have hsplit : m.delivered ++ rest = body := by
    refine (hrest.resolve_left htemp).resolve_left ?_
    rintro rfl
    simp at hp
  have hhand := flush_inHand { m.sess with temp := some (rest.take n), recvCount := 1 } nodeOk bufOk
  refine h.tested finished hflight (b := some (rest.take n)) (by rw [flush_eq]) ?_ (.inr ?_) <;> rw [hhand]
  · split
    · rw [← hsplit]
      exact (List.prefix_append_right_inj _).mpr (List.take_prefix ..)
    · rw [List.append_nil]
      exact hdel
  · split
    · refine .inr ?_
      rw [List.append_assoc, Option.getD_some, List.take_append_drop]
      exact hsplit
    · rename_i hno
      exact .inl ((hdata h.mode hp).resolve_left hno)

/-- Every step in plain mode. -/
theorem Plain.step {a : Act} (h : m.Plain body) (hl : m.Linked) (hok : m.Orderly a) : (m.step body a).Plain body := by
  cases a with
  | call bufLen sent =>
    rw [Machine.step]
    split
    · rename_i hcall
      obtain ⟨hidle, -⟩ := hcall
      have hmode := h.mode
      simp only [call, hmode, Bool.false_eq_true, if_false]
      have hhanded : ∀ n, m.returned ++ (Reader.waiting n).inHand ++ m.sess.queue.front.flatten ++ m.callback.inHand =
          m.handed := by
        intro n
        rw [Machine.handed, Machine.delivered, hidle]
        rfl
      split
      · rename_i hfresh
        obtain ⟨hpending, hflight, hnil⟩ := h.fresh hfresh
        split
        · have hnil' := (hhanded bufLen).trans hnil
          refine ⟨rfl, h.count, ?_, by simp, fun _ => ⟨by rw [hpending]; rfl, hflight, hnil'⟩, ?_, h.zeros⟩
          · rw [Machine.handed, Machine.delivered, hnil']
            exact List.nil_prefix
          · intro r rest heq
            simp [hflight] at heq
        · exact h
      · exact h.congr (hhanded bufLen) rfl rfl rfl rfl rfl rfl rfl
    · exact h
  | reader expired sent => exact h.reader
  | answer =>
    rw [Machine.step]
    split
    · rename_i r rest hp
      obtain ⟨heq, hflight, hnil⟩ := h.pending (by simp [hp])
      rw [hp] at heq
      obtain ⟨rfl, rfl⟩ := List.cons.inj heq
      split
      · refine ⟨h.mode, h.count, h.handed, ?_, fun hne => absurd rfl hne, ?_, h.zeros⟩
        · intro hf
          have hnone := (h.fresh hf).1
          simp [hp] at hnone
        · intro r rest heq
          obtain ⟨rfl, rfl⟩ := Prod.mk.inj (Option.some.inj heq)
          refine .inr (.inr ?_)
          show m.handed ++ _ = body
          rw [hnil, List.nil_append]
          exact List.take_length
      · exact h
    · exact h
  | lose =>
    have htail : m.pending.tail = [] := by
      by_cases hp : m.pending = []
      · rw [hp]
        rfl
      · rw [(h.pending hp).1]
        rfl
    rw [Machine.step, htail]
    exact ⟨h.mode, h.count, h.handed, fun hf => ⟨rfl, (h.fresh hf).2⟩, fun hne => absurd rfl hne, h.rest, h.zeros⟩
  | notFound =>
    rw [Machine.step]
    split
    · rename_i r rest hp
      obtain ⟨heq, hflight, hnil⟩ := h.pending (by simp [hp])
      rw [hp] at heq
      obtain ⟨rfl, rfl⟩ := List.cons.inj heq
      split
      · exact ⟨h.mode, h.count, h.handed, fun hf => ⟨rfl, (h.fresh hf).2⟩, fun hne => absurd rfl hne, h.rest, h.zeros⟩
      · exact h
    · exact h
  | piece n finished nodeOk bufOk =>
    rw [Machine.step]
    split
    · exact h
    · rename_i r rest hflight
      split
      · exact h
      · rename_i hgo
        exact h.receive (by_contra fun hne => hgo (.inl hne)) hflight hok
  | store => exact h.store hl hok
  | broken =>
    rw [Machine.step]
    split
    · exact ⟨h.mode, h.count, h.handed, fun hf => ⟨(h.fresh hf).1, rfl, (h.fresh hf).2.2⟩,
        fun hne => ⟨(h.pending hne).1, rfl, (h.pending hne).2.2⟩, fun r rest heq => by simp at heq, h.zeros⟩
    · exact h

/-! ### Range mode -/

end Machine

/-- A range of at least one byte that fits the buffer and lies within the first `total` bytes. -/
def Request.Within (total : ℕ) (r : Request) : Prop := 0 < r.len ∧ r.len ≤ otaChunkSize ∧ r.offset + r.len ≤ total

/-- The bytes gathered of the response under way. -/
def Session.held (s : Session) : Bytes := if s.recvCount = 0 then [] else s.temp.getD []

/-- The callback in range mode, where the response fits the buffer. -/
theorem httpClientCbOta_range {s : Session} {piece : Bytes} (finished nodeOk bufOk : Bool)
    (hmode : s.range = true) (htemp : s.temp ≠ none) (hfit : s.held.length + piece.length ≤ otaChunkSize)
    (hcount : s.recvCount ≤ s.held.length) :
    ∃ s', httpClientCbOta s piece finished nodeOk bufOk = (if finished then flush s' nodeOk bufOk else (s', .idle)) ∧
      s'.held = s.held ++ piece ∧ s'.recvCount ≤ s'.held.length ∧ s'.temp ≠ none ∧
      ∃ k b, s' = { s with recvCount := k, temp := b } := by
  rw [httpClientCbOta]
  by_cases hp : piece = []
  · refine ⟨s, ?_, ?_, hcount, htemp, s.recvCount, s.temp, rfl⟩
    · simp [hp, hmode]
    · rw [hp, List.append_nil]
  · obtain ⟨b, hb⟩ := Option.ne_none_iff_exists'.mp htemp
    have hheld : s.held = if s.recvCount = 0 then [] else b := by rw [Session.held, hb]; rfl
    have hpos := List.length_pos_iff.mpr hp
    have hmod : (s.recvCount + 1) % 65536 = s.recvCount + 1 := by
      rw [otaChunkSize] at hfit
      omega
    have hnext : ({ s with temp := some (s.held ++ piece), recvCount := s.recvCount + 1 } : Session).held =
        s.held ++ piece := by simp [Session.held]
    refine ⟨{ s with temp := some (s.held ++ piece), recvCount := s.recvCount + 1 }, ?_, hnext, ?_, by simp, _, _, rfl⟩
    · rw [if_pos hp, hb]
      simp only []
      rw [← hheld, if_neg (by omega), hmod]
      simp [hmode]
    · rw [hnext, List.length_append]
      show s.recvCount + 1 ≤ _
      omega

namespace Machine

variable {body : Bytes} {m : Machine}

/-- What has been delivered or is in the callback's node is the first ranges of the body; the buffer holds what has been
    handed over of the response under way. -/
structure Ranged (body : Bytes) (m : Machine) : Prop where
  mode : m.sess.range = true
  total : m.sess.totalLen = u32 body.length
  handed : m.handed <+: body
  within : m.handed.length ≤ m.sess.totalLen
  offset : m.sess.rangeOffset = m.returned.length
  asked : ∀ n, m.reader = .waiting n → m.sess.rangeOffset < m.sess.totalLen
  pending : ∀ r ∈ m.pending, r.Within m.sess.totalLen
  temp : m.sess.temp ≠ none
  idle : m.inFlight = none → m.sess.recvCount = 0
  gathered : ∀ r rest, m.inFlight = some (r, rest) → r.Within m.sess.totalLen ∧
    m.sess.held ++ rest = r.slice body ∧ m.sess.recvCount ≤ m.sess.held.length
  zeros : ∀ z ∈ m.zeros, z = body.take (u32 body.length)

theorem u32_length_le (body : Bytes) : u32 body.length ≤ body.length := Nat.mod_le ..

theorem Ranged.init (body : Bytes) : (Machine.init true body).Ranged body where
  mode := rfl
  total := rfl
  handed := List.nil_prefix
  within := Nat.zero_le _
  offset := rfl
  asked := fun n h => by simp [Machine.init] at h
  pending := fun r hr => by simp [Machine.init] at hr
  temp := by simp [Machine.init]
  idle := fun _ => rfl
  gathered := fun r rest h => by simp [Machine.init] at h
  zeros := fun z hz => by simp [Machine.init] at hz

theorem Ranged.nextRange_within (h : m.sess.rangeOffset < m.sess.totalLen) :
    m.nextRange.Within m.sess.totalLen := by
  simp only [Request.Within, nextRange, otaChunkSize]
  omega

theorem Ranged.returned_le (h : m.Ranged body) : m.returned.length ≤ m.sess.totalLen := by
  have hw := h.within
  rw [Machine.handed, Machine.delivered, List.length_append, List.length_append, List.length_append] at hw
  omega

theorem Ranged.reader {expired sent : Bool} (h : m.Ranged body) : (m.readerStep expired sent).Ranged body := by
  have hsame := m.handed_readerStep expired sent
  have hhanded : (m.readerStep expired sent).handed <+: body := hsame ▸ h.handed
  have hwithin : (m.readerStep expired sent).handed.length ≤ m.sess.totalLen := hsame ▸ h.within
  obtain ⟨k, r, ps, he, -, hr, hps⟩ | ⟨b, rest, -, -, he⟩ | ⟨out, hout, he⟩ := m.readerStep_cases expired sent
  · rw [he] at hhanded hwithin ⊢
    refine ⟨h.mode, h.total, hhanded, hwithin, h.offset, ?_, ?_, h.temp, h.idle, h.gathered, h.zeros⟩
    · intro n hn
      rcases hr with rfl | rfl
      · simp at hn
      · exact h.asked n hn
    · intro r' hr'
      rcases List.mem_append.mp hr' with hr' | hr'
      · exact h.pending r' hr'
      · rcases hps with rfl | ⟨-, rfl, n, hw⟩
        · simp at hr'
        · rw [List.mem_singleton.mp hr']
          exact Ranged.nextRange_within (h.asked n hw)
  · rw [he] at hhanded hwithin ⊢
    exact ⟨h.mode, h.total, hhanded, hwithin, h.offset, by simp, h.pending, h.temp, h.idle, h.gathered, h.zeros⟩
  · have hret : m.returned.length + out.length ≤ m.sess.totalLen := by
      have hw := h.within
      rw [Machine.handed, Machine.delivered, hout, List.length_append, List.length_append, List.length_append] at hw
      show _ ≤ _
      simp only [Reader.inHand] at hw
      omega
    rw [he] at hhanded hwithin ⊢
    refine ⟨h.mode, h.total, hhanded, hwithin, ?_, by simp, h.pending, h.temp, h.idle, h.gathered, h.zeros⟩
    show u32 (m.sess.rangeOffset + out.length) = (m.returned ++ out).length
    have hlt : m.sess.totalLen < 2 ^ 32 := h.total ▸ u32_lt _
    rw [h.offset, List.length_append, u32_of_lt (by omega)]

/-- Here a node that does not get into the queue is as good as one that was never allocated. -/
theorem Ranged.store (h : m.Ranged body) (hl : m.Linked) : m.store.Ranged body := by
  have hpre : m.store.handed <+: m.handed := by
    rcases hl.store.2 with heq | ⟨node, -, -, heq⟩ <;> rw [heq]
    exact List.prefix_append ..
  exact ⟨h.mode, h.total, hpre.trans h.handed, hpre.length_le.trans h.within, h.offset, h.asked, h.pending, h.temp,
    h.idle, h.gathered, h.zeros⟩

theorem Ranged.length_slice {r : Request} {rest : Bytes} (h : m.Ranged body) (hflight : m.inFlight = some (r, rest)) :
    (r.slice body).length = r.len := by
  obtain ⟨-, -, hend⟩ := (h.gathered r rest hflight).1
  have hle := u32_length_le body
  have htotal := h.total
  exact Request.length_slice (by omega)

/-- A piece is gathered behind the others of its response. -/
theorem Ranged.gather {r : Request} {rest : Bytes} {n : ℕ} (finished nodeOk bufOk : Bool) (h : m.Ranged body)
    (hflight : m.inFlight = some (r, rest)) :
    ∃ s', httpClientCbOta m.sess (rest.take n) finished nodeOk bufOk = (if finished then flush s' nodeOk bufOk else (s', .idle)) ∧
      s'.held ++ rest.drop n = r.slice body ∧ s'.recvCount ≤ s'.held.length ∧ s'.temp ≠ none ∧
      ∃ k b, s' = { m.sess with recvCount := k, temp := b } := by
  obtain ⟨⟨-, hchunk, -⟩, hheld, hcount⟩ := h.gathered r rest hflight
  have hslice := h.length_slice hflight
  have hfit : m.sess.held.length + (rest.take n).length ≤ otaChunkSize := by
    have hlen := congrArg List.length hheld
    rw [List.length_append, hslice] at hlen
    rw [List.length_take]
    omega
  obtain ⟨s', hcb, hheld', hrest⟩ := httpClientCbOta_range finished nodeOk bufOk h.mode h.temp hfit hcount
  refine ⟨s', hcb, ?_, hrest⟩
  rw [hheld', List.append_assoc, List.take_append_drop]
  exact hheld

/-- A piece that is not the last one of its response is kept. -/
theorem Ranged.keep {r : Request} {rest rest' : Bytes} {s' : Session} (h : m.Ranged body) (hidle : m.callback = .idle)
    (hflight : m.inFlight = some (r, rest)) (hheld : s'.held ++ rest' = r.slice body)
    (hcount : s'.recvCount ≤ s'.held.length) (htemp : s'.temp ≠ none)
    (hs : ∃ k b, s' = { m.sess with recvCount := k, temp := b }) :
    ({ m with sess := s', callback := .idle, inFlight := some (r, rest') } : Machine).Ranged body := by
  have hw := (h.gathered r rest hflight).1
  obtain ⟨k, b, hs'⟩ := hs
  have hq : s'.queue = m.sess.queue := by rw [hs']
  have hsame : ({ m with sess := s', callback := .idle, inFlight := some (r, rest') } : Machine).handed = m.handed := by
    simp only [Machine.handed, Machine.delivered, hq, hidle]
  constructor
  · rw [hs']
    exact h.mode
  · rw [hs']
    exact h.total
  · rw [hsame]
    exact h.handed
  · rw [hsame, hs']
    exact h.within
  · rw [hs']
    exact h.offset
  · rw [hs']
    exact h.asked
  · rw [hs']
    exact h.pending
  · exact htemp
  · simp
  · intro r' rest'' heq
    obtain ⟨rfl, rfl⟩ := Prod.mk.inj (Option.some.inj heq)
    refine ⟨?_, hheld, hcount⟩
    rw [hs']
    exact hw
  · exact h.zeros

/-- With the last piece the response is in the callback's node, or it is given up and nothing has changed. -/
theorem Ranged.deliver {r : Request} {rest : Bytes} {s' : Session} (nodeOk bufOk : Bool) (h : m.Ranged body)
    (hidle : m.callback = .idle) (hflight : m.inFlight = some (r, rest)) (hnext : r.offset = m.delivered.length)
    (hheld : s'.held = r.slice body) (htemp : s'.temp ≠ none)
    (hs : ∃ k b, s' = { m.sess with recvCount := k, temp := b }) :
    ({ m with
      sess := (flush s' nodeOk bufOk).1, callback := (flush s' nodeOk bufOk).2, inFlight := none } : Machine).Ranged
      body := by
  obtain ⟨hpos, -, hend⟩ := (h.gathered r rest hflight).1
  have hslice := h.length_slice hflight
  have hnow : m.handed = m.delivered := by rw [Machine.handed, hidle, Callback.inHand_idle, List.append_nil]
  have hdel := h.handed
  have hw := h.within
  rw [hnow] at hdel hw
  obtain ⟨k, b, hs'⟩ := hs
  have hgot : s'.temp.getD [] = r.slice body := by
    rw [← hheld, Session.held, if_neg]
    intro hzero
    have hnil : s'.held = [] := by rw [Session.held, if_pos hzero]
    rw [← hheld, hnil, List.length_nil] at hslice
    omega
  have hlen : (m.delivered ++ r.slice body).length ≤ m.sess.totalLen := by
    rw [List.length_append, hslice]
    omega
  have hhanded : ({ m with
      sess := (flush s' nodeOk bufOk).1, callback := (flush s' nodeOk bufOk).2, inFlight := none } : Machine).handed =
      m.delivered ++ if nodeOk = true ∧ bufOk = true then r.slice body else [] := by
    have hq : (flush s' nodeOk bufOk).1.queue = m.sess.queue := by rw [flush_eq, hs']
    simp only [Machine.handed, Machine.delivered, hq, flush_inHand, hgot]
  have hsess : (flush s' nodeOk bufOk).1 = { m.sess with recvCount := 0, temp := b } := by rw [flush_eq, hs']
  constructor
  · rw [hsess]
    exact h.mode
  · rw [hsess]
    exact h.total
  · rw [hhanded]
    split
    · exact Request.append_slice hdel hnext
    · rw [List.append_nil]
      exact hdel
  · rw [hhanded, hsess]
    split
    · exact hlen
    · rw [List.append_nil]
      exact hw
  · rw [hsess]
    exact h.offset
  · rw [hsess]
    exact h.asked
  · rw [hsess]
    exact h.pending
  · rw [flush_eq]
    exact htemp
  · intro _
    rw [hsess]
  · intro r' rest' heq
    simp at heq
  · exact h.zeros

theorem Ranged.receive {r : Request} {rest : Bytes} {n : ℕ} {finished nodeOk bufOk : Bool} (h : m.Ranged body)
    (hidle : m.callback = .idle) (hflight : m.inFlight = some (r, rest)) (hlast : finished = true → rest.drop n = [])
    (hok : m.Timely n finished nodeOk bufOk m.inFlight) : (m.receive r rest n finished nodeOk bufOk).Ranged body := by
  rw [hflight] at hok
  have hnext := hok.1 h.mode
  obtain ⟨s', hcb, hheld, hcount, htemp, hs⟩ := h.gather finished nodeOk bufOk hflight
  rw [Machine.receive, hcb]
  cases finished with
  | false => exact h.keep hidle hflight hheld hcount htemp hs
  | true =>
    rw [hlast rfl, List.append_nil] at hheld
    exact h.deliver nodeOk bufOk hidle hflight (hnext rfl) hheld htemp hs

/-- What has been returned at the end is all of the length. -/
theorem Ranged.whole (h : m.Ranged body) (hend : m.sess.totalLen ≤ m.sess.rangeOffset) :
    m.returned = body.take (u32 body.length) := by
  have hle := h.returned_le
  have hpre : m.returned <+: body := by
    refine List.IsPrefix.trans ?_ h.handed
    rw [Machine.handed, Machine.delivered, List.append_assoc, List.append_assoc]
    exact List.prefix_append ..
  have hlen : m.returned.length = u32 body.length := by
    rw [← h.total]
    have := h.offset
    omega
  rw [← hlen]
  exact List.prefix_iff_eq_take.mp hpre

/-- A call of the reader: the end is reported, or the next range is asked for. -/
theorem Ranged.call (h : m.Ranged body) (hidle : m.reader = .idle) (bufLen : ℕ) (sent : Bool) :
    (m.call body bufLen sent).Ranged body := by
  rw [Machine.call, if_pos h.mode]
  split
  · rename_i hend
    refine ⟨h.mode, h.total, h.handed, h.within, h.offset, h.asked, h.pending, h.temp, h.idle, h.gathered, ?_⟩
    intro z hz
    rcases List.mem_append.mp hz with hz | hz
    · exact h.zeros z hz
    · rw [List.mem_singleton.mp hz]
      exact h.whole hend
  · rename_i hend
    have hmore : m.sess.rangeOffset < m.sess.totalLen := by omega
    split
    · rw [getWithOffset_eq]
      have hsame : ({ m with
          pending := m.pending ++ [m.nextRange], reader := .waiting bufLen } : Machine).handed = m.handed := by
        rw [Machine.handed, Machine.handed, Machine.delivered, Machine.delivered, hidle]
        rfl
      refine ⟨h.mode, h.total, hsame ▸ h.handed, hsame ▸ h.within, h.offset, fun _ _ => hmore, ?_, h.temp, h.idle,
        h.gathered, h.zeros⟩
      intro r hr
      rcases List.mem_append.mp hr with hr | hr
      · exact h.pending r hr
      · rw [List.mem_singleton.mp hr]
        exact Ranged.nextRange_within hmore
    · exact h

/-- A response begins: nothing is gathered of it yet. -/
theorem Ranged.answer (h : m.Ranged body) {r : Request} {rest : List Request} (hp : m.pending = r :: rest)
    (hnone : m.inFlight = none) :
    ({ m with pending := rest, inFlight := some (r, r.slice body) } : Machine).Ranged body := by
  refine ⟨h.mode, h.total, h.handed, h.within, h.offset, h.asked, ?_, h.temp, by simp, ?_, h.zeros⟩
  · exact fun r' hr' => h.pending r' (hp ▸ List.mem_cons_of_mem _ hr')
  · intro r' rest' heq
    obtain ⟨rfl, rfl⟩ := Prod.mk.inj (Option.some.inj heq)
    have hzero := h.idle hnone
    have hheld : m.sess.held = [] := by rw [Session.held, if_pos hzero]
    refine ⟨h.pending _ (hp ▸ List.mem_cons_self), ?_, ?_⟩
    · show m.sess.held ++ _ = _
      rw [hheld, List.nil_append]
    · show m.sess.recvCount ≤ _
      omega

/-- Every step in range mode. -/
theorem Ranged.step {a : Act} (h : m.Ranged body) (hl : m.Linked) (hok : m.Orderly a) :
    (m.step body a).Ranged body := by
  cases a with
  | call bufLen sent =>
    rw [Machine.step]
    split
    · rename_i hcall
      exact h.call hcall.1 bufLen sent
    · exact h
  | reader expired sent => exact h.reader
  | answer =>
    rw [Machine.step]
    split
    · rename_i r rest hp
      split
      · rename_i hnone
        exact h.answer hp hnone.2
      · exact h
    · exact h
  | lose =>
    exact ⟨h.mode, h.total, h.handed, h.within, h.offset, h.asked,
      fun r hr => h.pending r (List.mem_of_mem_tail hr), h.temp, h.idle, h.gathered, h.zeros⟩
  | notFound =>
    rw [Machine.step]
    split
    · rename_i r rest hp
      split
      · exact ⟨h.mode, h.total, h.handed, h.within, h.offset, h.asked,
          fun r' hr' => h.pending r' (hp ▸ List.mem_cons_of_mem _ hr'), h.temp, h.idle, h.gathered, h.zeros⟩
      · exact h
    · exact h
  | piece n finished nodeOk bufOk =>
    rw [Machine.step]
    split
    · exact h
    · rename_i r rest hflight
      split
      · exact h
      · rename_i hgo
        refine h.receive (by_contra fun hne => hgo (.inl hne)) hflight (fun hf => ?_) hok
        by_contra hne
        exact hgo (.inr ⟨hf, hne⟩)
  | store => exact h.store hl
  | broken =>
    rw [Machine.step]
    split
    · exact ⟨h.mode, h.total, h.handed, h.within, h.offset, h.asked, h.pending, h.temp, fun _ => hok h.mode,
        fun r rest heq => by simp at heq, h.zeros⟩
    · exact h

/-! ### Whole runs -/

/-- The invariant of either mode. -/
def Kept (body : Bytes) (m : Machine) : Prop := m.Linked ∧ (m.Plain body ∨ m.Ranged body)

theorem Kept.init (range : Bool) (body : Bytes) : (Machine.init range body).Kept body := by
  refine ⟨Linked.init range body, ?_⟩
  cases range with
  | false => exact .inl (Plain.init body)
  | true => exact .inr (Ranged.init body)

theorem Kept.run {as : List Act} (h : m.Kept body) (hok : Along (fun m a => m.step body a) Orderly m as) :
    (m.run body as).Kept body := by
  induction as generalizing m with
  | nil => exact h
  | cons a as ih => exact ih ⟨h.1.step a, h.2.imp (·.step h.1 hok.1) (·.step h.1 hok.1)⟩ hok.2

theorem returned_prefix_delivered (m : Machine) : m.returned <+: m.delivered := by
  rw [delivered, List.append_assoc]
  exact List.prefix_append ..

theorem delivered_prefix_handed (m : Machine) : m.delivered <+: m.handed := List.prefix_append ..

/-- In every run whose steps are all orderly, whatever the body, the mode, the pieces, the time-outs and the schedule,
    the bytes returned are a prefix of the body and stay one with those queued. -/
theorem body_exact (range : Bool) (body : Bytes) (as : List Act)
    (hok : Along (fun m a => m.step body a) Orderly (Machine.init range body) as) :
    Exact body ((Machine.init range body).run body as) := by
  rcases ((Kept.init range body).run hok).2 with h | h
  · have hdel := (delivered_prefix_handed _).trans h.handed
    refine ⟨(returned_prefix_delivered _).trans hdel, hdel, ?_⟩
    rw [h.zeros]
    simp
  · have hdel := (delivered_prefix_handed _).trans h.handed
    exact ⟨(returned_prefix_delivered _).trans hdel, hdel, h.zeros⟩

/-- Two bytes in two pieces, the second of which ends the response. A call waits while the first is queued, and takes it
    while the callback still has to move `rear` to the second. -/
theorem body_exact_two : Exact [65, 66] ((Machine.init false [65, 66]).run [65, 66]
      [.call 8 true, .answer, .piece 1 false true true, .store, .reader false true, .store, .piece 1 true true true,
        .store, .reader false true, .store, .reader false true, .call 8 true, .reader false true, .reader false true]) ∧
    ((Machine.init false [65, 66]).run [65, 66]
      [.call 8 true, .answer, .piece 1 false true true, .store, .reader false true, .store, .piece 1 true true true,
        .store, .reader false true, .store, .reader false true, .call 8 true, .reader false true, .reader false true]).returned = [65, 66] :=
  ⟨body_exact false [65, 66] _ (by decide), by decide⟩

/-- A response that ends with an empty piece has its last piece queued twice. -/
theorem last_piece_twice : ¬ Exact [65] ((Machine.init false [65]).run [65]
    [.call 8 true, .answer, .piece 1 false true true, .store, .store, .piece 0 true true true, .store, .store,
      .reader false true, .reader false true, .call 8 true, .reader false true, .reader false true]) := by
  intro h
  exact absurd h.returned (by decide)

end Machine

end Qcc730.Ota.Http
