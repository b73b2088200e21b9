import Qcc730.DataSvc.Handlers

/-! What a failed request leaves behind.

    Each request takes up to four resources, one after the other, and has its own way back for each failure. The
    condition says for which failures that way is complete. -/

namespace Qcc730.DataSvc

/-- The requests and callbacks that open something. -/
inductive Request where
  | tcpConnect (i : Input)
  | tcpListen (i : Input)
  | udpListen (i : Input)
  | udpConnect (i : Input)
  | rawOpen (i : Input) (mac : Bool) (ethType destMac : ℕ)
  /-- a connection of the listener `l` is accepted -/
  | accepted (l p : ℕ) (err : Err) (i : Input)
  /-- the connection `k` is connected -/
  | connected (k : ℕ) (i : Input)

namespace Request

/-- No result: the device stops, or there is no such listener or connection. -/
def run (s : Svc) : Request → Option Ended
  | .tcpConnect i => some (s.tcpClientConnectReq i)
  | .tcpListen i => some (s.tcpListenStartReq i)
  | .udpListen i => some (s.udpServerStartReq i)
  | .udpConnect i => s.udpClientStartReq i
  | .rawOpen i mac ethType destMac => s.rawethStartConnReq i mac ethType destMac
  | .accepted l p err i =>
    match s.listens l with
    | none => none
    | some h => some (s.tcpAcceptClient h p err i)
  | .connected k i =>
    match s.conns k with
    | none => none
    | some h => some (s.tcpClientConnectCallback k h i)

/-- A control block that lwIP makes is not one that is live. -/
def Legal (s : Svc) : Request → Prop
  | .tcpConnect i | .tcpListen i | .udpListen i | .udpConnect i =>
    (∀ p, i.pcb = some p → s.pcbs p = false) ∧ ∀ p, i.listenPcb = some p → s.pcbs p = false
  | _ => True

/-- The condition on a request: it fails before it has taken anything, or at a point from which it finds its way
    back, or not at all. -/
def Unwinds (s : Svc) : Request → Prop
  | .tcpConnect _ => True
  | .tcpListen i => i.rsp = true → i.netif = true → i.pcb ≠ none → i.bind = .ok ∧ i.listenPcb ≠ none ∧ i.cfm = true
  | .udpListen i => i.rsp = true → i.netif = true → i.pcb ≠ none → i.bind = .ok → s.newListen ≠ none → i.cfm = true
  | .udpConnect i => i.rsp = true → i.netif = true → i.pcb ≠ none → i.bind = .ok → i.connect = .ok → s.newConn ≠ none →
      s.a2f.createShared .udp i.a2fMem ≠ none → i.cfm = true
  | .rawOpen i mac ethType destMac => i.rsp = true → i.netif = true → mac = true →
      s.rawethExistingConnChk i.netifId ethType destMac = false → s.newConn ≠ none →
      s.a2f.createShared .rawEther i.a2fMem ≠ none → s.f2a.createShared .rawEther i.f2aMem ≠ none → i.cfm = true
  | .accepted l _ err i => s.listens l ≠ none → i.rsp = true → err = .ok → s.newConn ≠ none →
      s.f2a.create i.f2aMem ≠ none ∧ s.a2f.create i.a2fMem ≠ none
  | .connected k i => s.conns k ≠ none → i.rsp = true → s.a2f.create i.a2fMem ≠ none → s.f2a.create i.f2aMem ≠ none →
      i.cfm = true

end Request

/-- What the data service holds: handlers, control blocks and rings. -/
def Svc.held (s : Svc) : (ℕ → Bool) × (ℕ → Bool) × (ℕ → Bool) × Rings × Rings :=
  (fun i => (s.conns i).isSome, fun i => (s.listens i).isSome, s.pcbs, s.a2f, s.f2a)

/-- A failure leaves nothing behind, and releases nothing twice. -/
def LeavesNothing (s : Svc) (r : Option Ended) : Prop :=
  ∀ e, r = some e → e.Failed → e.svc.held = s.held ∧ e.svc.twice = s.twice

/-! ### Held or not -/

section

variable {s s' : Svc}

theorem newConn_free {k : ℕ} (h : s.newConn = some k) : s.conns k = none := by
  have := List.find?_some h
  simpa using this

theorem newListen_free {k : ℕ} (h : s.newListen = some k) : s.listens k = none := by
  have := List.find?_some h
  simpa using this

theorem Rings.create_free {r r' : Rings} {mem : Bool} {i : ℕ} (h : r.create mem = some (i, r')) :
    r.used i = false ∧ i < r.maxNum ∧ r' = { r with used := Function.update r.used i true } := by
  rw [Rings.create] at h
  split at h
  · cases h
  · rename_i j hj
    split at h
    · simp only [Option.some.injEq, Prod.mk.injEq] at h
      obtain ⟨rfl, rfl⟩ := h
      have hfree := List.find?_some hj
      exact ⟨by simpa using hfree, List.mem_range.mp (List.mem_of_find?_eq_some hj), rfl⟩
    · cases h

/-- A ring that was just created can be deleted, and then is as before. -/
theorem Rings.delete_create {r r' : Rings} {mem : Bool} {i : ℕ} (h : r.create mem = some (i, r')) :
    (r'.delete i).getD r' = r := by
  obtain ⟨hfree, hlt, rfl⟩ := create_free h
  simp only [Rings.delete, Function.update_self, hlt, and_self, if_true, Option.getD_some, Function.update_idem]
  rw [← hfree, Function.update_eq_self]

theorem held_ne_conn {k : ℕ} (h : s.conns k = none) (h' : s'.conns k ≠ none) : s'.held ≠ s.held := by
  intro heq
  have := congrFun (congrArg Prod.fst heq) k
  simp only [Svc.held, h, Option.isSome_none] at this
  exact h' (Option.isSome_eq_false_iff.mp this |> Option.isNone_iff_eq_none.mp)

theorem held_ne_listen {k : ℕ} (h : s.listens k = none) (h' : s'.listens k ≠ none) : s'.held ≠ s.held := by
  intro heq
  have := congrFun (congrArg (fun x => x.2.1) heq) k
  simp only [Svc.held, h, Option.isSome_none] at this
  exact h' (Option.isSome_eq_false_iff.mp this |> Option.isNone_iff_eq_none.mp)

theorem held_ne_pcb {p : ℕ} (h : s.pcbs p = false) (h' : s'.pcbs p = true) : s'.held ≠ s.held := by
  intro heq
  have := congrFun (congrArg (fun x => x.2.2.1) heq) p
  simp only [Svc.held, h, h', Bool.true_eq_false] at this

theorem held_ne_a2f {i : ℕ} (h : s.a2f.used i = false) (h' : s'.a2f.used i = true) : s'.held ≠ s.held := by
  intro heq
  have := congrFun (congrArg (fun x => x.2.2.2.1.used) heq) i
  simp only [Svc.held, h, h', Bool.true_eq_false] at this

/-- A control block that is made and removed again. -/
theorem removePcb_addPcb {p : ℕ} (h : s.pcbs p = false) :
    ((s.addPcb p).removePcb p).held = s.held ∧ ((s.addPcb p).removePcb p).twice = s.twice := by
  refine ⟨?_, by simp [Svc.removePcb, Svc.addPcb]⟩
  simp only [Svc.held, Svc.removePcb, Svc.addPcb, Function.update_idem]
  rw [← h, Function.update_eq_self]

/-- A connection that is taken back. -/
theorem freeConn_setConn {p k : ℕ} (hk : s.conns k = none) (hp : s.pcbs p = false) (h : ConnHandler) :
    ((((s.addPcb p).setConn k h).removePcb p).freeConn k).held = s.held ∧
      ((((s.addPcb p).setConn k h).removePcb p).freeConn k).twice = s.twice := by
  refine ⟨?_, by simp [Svc.removePcb, Svc.addPcb, Svc.setConn, Svc.freeConn]⟩
  simp only [Svc.held, Svc.removePcb, Svc.addPcb, Svc.setConn, Svc.freeConn, Function.update_idem]
  rw [← hk, Function.update_eq_self, ← hp, Function.update_eq_self]

/-! ### One request -/

theorem leavesNothing_some {e : Ended} :
    LeavesNothing s (some e) ↔ (e.Failed → e.svc.held = s.held ∧ e.svc.twice = s.twice) :=
  ⟨fun h => h e rfl, fun h e' he => by cases he; exact h⟩

/-- It leaves nothing when what it holds is as before. -/
theorem leavesNothing_of_same {e : Ended} (h : e.svc.held = s.held ∧ e.svc.twice = s.twice) :
    LeavesNothing s (some e) :=
  leavesNothing_some.mpr fun _ => h

theorem leavesNothing_of_ok {e : Ended} (h : ¬ e.Failed) : LeavesNothing s (some e) :=
  leavesNothing_some.mpr fun hf => absurd hf h

theorem not_leavesNothing {e : Ended} (hf : e.Failed) (h : e.svc.held ≠ s.held) : ¬ LeavesNothing s (some e) :=
  fun hl => h (leavesNothing_some.mp hl hf).1

/-- A connect whose response is not sent returns TRUE, so it does not count as failed. -/
theorem tcpConnect_leaves (i : Input) (hl : Request.Legal s (.tcpConnect i)) :
    LeavesNothing s (Request.run s (.tcpConnect i)) := by
  simp only [Request.run, Svc.tcpClientConnectReq]
  cases hr : i.rsp with
  | false => exact leavesNothing_of_same ⟨rfl, rfl⟩
  | true =>
  cases hc : i.cfm with
  | false => exact leavesNothing_of_ok (by simp [Ended.Failed])
  | true =>
  simp only [not_true_eq_false, if_false]
  cases hn : i.netif with
  | false => exact leavesNothing_of_same (by simp [Svc.tcpConnectGot, hn])
  | true =>
  cases hp : i.pcb with
  | none => exact leavesNothing_of_same (by simp [Svc.tcpConnectGot, hn, hp])
  | some p =>
  have hfree := hl.1 p hp
  simp only [Svc.tcpConnectGot, hn, hp, not_true_eq_false, if_false]
  by_cases hb : i.bind = .ok
  swap
  · simpa [hb] using leavesNothing_of_same (removePcb_addPcb hfree)
  simp only [hb]
  cases hk : s.newConn with
  | none => simpa using leavesNothing_of_same (removePcb_addPcb hfree)
  | some k =>
    by_cases hcon : i.connect = .ok
    · exact leavesNothing_of_ok (by simp [Ended.Failed, hcon])
    · simpa [hcon] using leavesNothing_of_same (freeConn_setConn (newConn_free hk) hfree _)

theorem tcpListen_leaves_iff (i : Input) (hl : Request.Legal s (.tcpListen i)) :
    LeavesNothing s (Request.run s (.tcpListen i)) ↔ Request.Unwinds s (.tcpListen i) := by
  simp only [Request.run, Request.Unwinds, Svc.tcpListenStartReq]
  cases hr : i.rsp with
  | false => exact iff_of_true (leavesNothing_of_same ⟨rfl, rfl⟩) (by simp)
  | true =>
  simp only [not_true_eq_false, if_false, forall_const]
  cases hn : i.netif with
  | false =>
    simp only [Svc.tcpListenGot, hn]
    refine iff_of_true ?_ (by simp)
    cases i.cfm <;> exact leavesNothing_of_same ⟨rfl, rfl⟩
  | true =>
  cases hp : i.pcb with
  | none =>
    simp only [Svc.tcpListenGot, hn, hp]
    refine iff_of_true ?_ (by simp)
    cases i.cfm <;> exact leavesNothing_of_same ⟨rfl, rfl⟩
  | some p =>
  have hfree := hl.1 p hp
  simp only [Svc.tcpListenGot, hn, hp, not_true_eq_false, if_false, forall_const, ne_eq, reduceCtorEq, not_false_eq_true]
  by_cases hb : i.bind = .ok
  swap
  · -- the first control block stays
    simp only [hb, not_false_eq_true, if_true, false_and, iff_false]
    cases hc : i.cfm with
    | false => exact not_leavesNothing (.inr (by simp)) (held_ne_pcb hfree (by simp [Svc.addPcb]))
    | true =>
      simp only [not_true_eq_false, if_false, Option.elim]
      exact not_leavesNothing (.inl (by simp [hb])) (held_ne_pcb hfree (by simp [Svc.addPcb]))
  simp only [hb, not_true_eq_false, if_false, true_and]
  cases hlp : i.listenPcb with
  | none =>
    simp only [not_true_eq_false, false_and, iff_false]
    cases hc : i.cfm with
    | false => exact not_leavesNothing (.inr (by simp)) (held_ne_pcb hfree (by simp [Svc.addPcb]))
    | true => exact not_leavesNothing (.inl (by simp)) (held_ne_pcb hfree (by simp [Svc.addPcb]))
  | some l =>
  have hfree' := hl.2 l hlp
  simp only [reduceCtorEq, not_false_eq_true, true_and]
  cases hk : s.newListen with
  | none =>
    cases hc : i.cfm with
    | false => exact iff_of_false (not_leavesNothing (.inr (by simp)) (held_ne_pcb hfree' (by simp [Svc.addPcb]))) (by simp)
    | true => exact iff_of_true (by simpa using leavesNothing_of_same (removePcb_addPcb hfree')) rfl
  | some k =>
    cases hc : i.cfm with
    | false =>
      exact iff_of_false
        (not_leavesNothing (.inr (by simp)) (held_ne_listen (newListen_free hk) (by simp [Svc.setListen]))) (by simp)
    | true => exact iff_of_true (leavesNothing_of_ok (by simp [Ended.Failed])) rfl

theorem udpListen_leaves_iff (i : Input) (hl : Request.Legal s (.udpListen i)) :
    LeavesNothing s (Request.run s (.udpListen i)) ↔ Request.Unwinds s (.udpListen i) := by
  simp only [Request.run, Request.Unwinds, Svc.udpServerStartReq]
  cases hr : i.rsp with
  | false => exact iff_of_true (leavesNothing_of_same ⟨rfl, rfl⟩) (by simp)
  | true =>
  simp only [not_true_eq_false, if_false, forall_const]
  cases hn : i.netif with
  | false => exact iff_of_true (by simpa [Svc.udpServerGot, hn] using leavesNothing_of_same ⟨rfl, rfl⟩) (by simp)
  | true =>
  cases hp : i.pcb with
  | none => exact iff_of_true (by simpa [Svc.udpServerGot, hn, hp] using leavesNothing_of_same ⟨rfl, rfl⟩) (by simp)
  | some p =>
  have hfree := hl.1 p hp
  simp only [Svc.udpServerGot, hn, hp, not_true_eq_false, if_false, forall_const, ne_eq, reduceCtorEq, not_false_eq_true]
  by_cases hb : i.bind = .ok
  swap
  · exact iff_of_true (by simpa [hb] using leavesNothing_of_same (removePcb_addPcb hfree)) (by simp [hb])
  simp only [hb, not_true_eq_false, if_false, forall_const]
  cases hk : s.newListen with
  | none => exact iff_of_true (by simpa using leavesNothing_of_same (removePcb_addPcb hfree)) (by simp)
  | some k =>
    simp only [reduceCtorEq, not_false_eq_true, forall_const, not_true_eq_false, if_false]
    cases hc : i.cfm with
    | false =>
      exact iff_of_false
        (not_leavesNothing (.inr (by simp)) (held_ne_listen (newListen_free hk) (by simp [Svc.setListen]))) (by simp)
    | true => exact iff_of_true (leavesNothing_of_ok (by simp [Ended.Failed])) rfl

theorem udpConnect_leaves_iff (i : Input) (hl : Request.Legal s (.udpConnect i)) :
    LeavesNothing s (Request.run s (.udpConnect i)) ↔ Request.Unwinds s (.udpConnect i) := by
  simp only [Request.run, Request.Unwinds, Svc.udpClientStartReq]
  cases hr : i.rsp with
  | false => exact iff_of_true (leavesNothing_of_same ⟨rfl, rfl⟩) (by simp)
  | true =>
  simp only [not_true_eq_false, if_false, forall_const]
  cases hn : i.netif with
  | false => exact iff_of_true (by simpa [Svc.udpClientGot, hn] using leavesNothing_of_same ⟨rfl, rfl⟩) (by simp)
  | true =>
  cases hp : i.pcb with
  | none => exact iff_of_true (by simpa [Svc.udpClientGot, hn, hp] using leavesNothing_of_same ⟨rfl, rfl⟩) (by simp)
  | some p =>
  have hfree := hl.1 p hp
  simp only [Svc.udpClientGot, hn, hp, not_true_eq_false, if_false, forall_const, ne_eq, reduceCtorEq, not_false_eq_true]
  by_cases hb : i.bind = .ok
  swap
  · exact iff_of_true (by simpa [hb] using leavesNothing_of_same (removePcb_addPcb hfree)) (by simp [hb])
  by_cases hcon : i.connect = .ok
  swap
  · exact iff_of_true (by simpa [hb, hcon] using leavesNothing_of_same (removePcb_addPcb hfree)) (by simp [hcon])
  simp only [hb, hcon, not_true_eq_false, if_false, forall_const]
  cases hk : s.newConn with
  | none => exact iff_of_true (by simpa using leavesNothing_of_same (removePcb_addPcb hfree)) (by simp)
  | some k =>
  cases ha : s.a2f.createShared .udp i.a2fMem with
  | none => exact iff_of_true (fun e he => by cases he) (by simp)
  | some r =>
    simp only [reduceCtorEq, not_false_eq_true, forall_const, not_true_eq_false, if_false]
    cases hc : i.cfm with
    | false =>
      exact iff_of_false
        (not_leavesNothing (.inr (by simp)) (held_ne_conn (newConn_free hk) (by simp [Svc.setConn]))) (by simp)
    | true => exact iff_of_true (leavesNothing_of_ok (by simp [Ended.Failed])) rfl

theorem rawOpen_leaves_iff (i : Input) (mac : Bool) (ethType destMac : ℕ) :
    LeavesNothing s (Request.run s (.rawOpen i mac ethType destMac)) ↔
      Request.Unwinds s (.rawOpen i mac ethType destMac) := by
  simp only [Request.run, Request.Unwinds, Svc.rawethStartConnReq]
  cases hr : i.rsp with
  | false => exact iff_of_true (leavesNothing_of_same ⟨rfl, rfl⟩) (by simp)
  | true =>
  cases hn : i.netif with
  | false => exact iff_of_true (leavesNothing_of_same ⟨rfl, rfl⟩) (by simp)
  | true =>
  cases mac with
  | false => exact iff_of_true (leavesNothing_of_same ⟨rfl, rfl⟩) (by simp)
  | true =>
  cases hx : s.rawethExistingConnChk i.netifId ethType destMac with
  | true => exact iff_of_true (leavesNothing_of_same ⟨rfl, rfl⟩) (by simp)
  | false =>
  cases hk : s.newConn with
  | none => exact iff_of_true (leavesNothing_of_same ⟨rfl, rfl⟩) (by simp)
  | some k =>
  cases ha : s.a2f.createShared .rawEther i.a2fMem with
  | none => exact iff_of_true (fun e he => by simp at he) (by simp)
  | some ra =>
  cases hf : s.f2a.createShared .rawEther i.f2aMem with
  | none => exact iff_of_true (fun e he => by simp at he) (by simp)
  | some rf =>
    simp only [not_true_eq_false, if_false, forall_const, ne_eq, reduceCtorEq, not_false_eq_true, Bool.false_eq_true]
    cases hc : i.cfm with
    | false =>
      exact iff_of_false
        (not_leavesNothing (.inr (by simp)) (held_ne_conn (newConn_free hk) (by simp [Svc.setConn]))) (by simp)
    | true => exact iff_of_true (leavesNothing_of_ok (by simp [Ended.Failed])) rfl

theorem accepted_leaves_iff (l p : ℕ) (err : Err) (i : Input) :
    LeavesNothing s (Request.run s (.accepted l p err i)) ↔ Request.Unwinds s (.accepted l p err i) := by
  simp only [Request.run, Request.Unwinds]
  cases hh : s.listens l with
  | none => exact iff_of_true (fun e he => by cases he) (by simp)
  | some h =>
  simp only [Svc.tcpAcceptClient]
  cases hr : i.rsp with
  | false => exact iff_of_true (leavesNothing_of_same ⟨rfl, rfl⟩) (by simp)
  | true =>
  by_cases he : err = .ok
  swap
  · exact iff_of_true (by simpa [he] using leavesNothing_of_same ⟨rfl, rfl⟩) (by simp [he])
  cases hk : s.newConn with
  | none => exact iff_of_true (by simpa [he] using leavesNothing_of_same ⟨rfl, rfl⟩) (by simp)
  | some k =>
  simp only [he, not_true_eq_false, if_false, forall_const, ne_eq, reduceCtorEq, not_false_eq_true]
  cases hf : s.f2a.create i.f2aMem with
  | none =>
    exact iff_of_false (not_leavesNothing (.inr (by simp)) (held_ne_conn (newConn_free hk) (by simp [Svc.setConn])))
      (by simp)
  | some rf =>
  cases ha : s.a2f.create i.a2fMem with
  | none =>
    exact iff_of_false (not_leavesNothing (.inr (by simp)) (held_ne_conn (newConn_free hk) (by simp [Svc.setConn])))
      (by simp)
  | some ra =>
    -- sent or not, it returns `ERR_OK`
    refine iff_of_true (leavesNothing_of_ok ?_) (by simp)
    cases hc : i.cfm <;> simp [Ended.Failed]

theorem connected_leaves_iff (k : ℕ) (i : Input) :
    LeavesNothing s (Request.run s (.connected k i)) ↔ Request.Unwinds s (.connected k i) := by
  simp only [Request.run, Request.Unwinds]
  cases hh : s.conns k with
  | none => exact iff_of_true (fun e he => by cases he) (by simp)
  | some h =>
  simp only [Svc.tcpClientConnectCallback]
  cases hr : i.rsp with
  | false => exact iff_of_true (leavesNothing_of_same ⟨rfl, rfl⟩) (by simp)
  | true =>
  simp only [not_true_eq_false, if_false, forall_const, ne_eq, reduceCtorEq, not_false_eq_true]
  cases ha : s.a2f.create i.a2fMem with
  | none => exact iff_of_true (leavesNothing_of_same ⟨rfl, rfl⟩) (by simp)
  | some ra =>
  obtain ⟨ra, a2f⟩ := ra
  cases hf : s.f2a.create i.f2aMem with
  | none =>
    refine iff_of_true (leavesNothing_of_same ⟨?_, rfl⟩) (by simp)
    simp only [Rings.delete_create ha]
  | some rf =>
    obtain ⟨hfree, -, rfl⟩ := Rings.create_free ha
    simp only [reduceCtorEq, not_false_eq_true, forall_const]
    cases hc : i.cfm with
    | false =>
      exact iff_of_false (not_leavesNothing (.inr (by simp)) (held_ne_a2f hfree (by simp))) (by simp)
    | true => exact iff_of_true (leavesNothing_of_ok (by simp [Ended.Failed])) rfl

/-- A request that fails leaves everything as it was, whatever fails, if and only if it meets the condition. -/
theorem failed_request_leaves_nothing_iff (s : Svc) (r : Request) (hl : r.Legal s) :
    LeavesNothing s (r.run s) ↔ r.Unwinds s := by
  cases r with
  | tcpConnect i => exact iff_of_true (tcpConnect_leaves i hl) trivial
  | tcpListen i => exact tcpListen_leaves_iff i hl
  | udpListen i => exact udpListen_leaves_iff i hl
  | udpConnect i => exact udpConnect_leaves_iff i hl
  | rawOpen i mac ethType destMac => exact rawOpen_leaves_iff i mac ethType destMac
  | accepted l p err i => exact accepted_leaves_iff l p err i
  | connected k i => exact connected_leaves_iff k i

end

/-- After `data_svc_init`, with the control ring and the ring of the host interface in use. -/
def Svc.init : Svc where
  conns := fun _ => none
  listens := fun _ => none
  pcbs := fun _ => false
  a2f := ⟨8, fun i => i < 2, fun _ => none, fun _ => 0⟩
  f2a := ⟨8, fun i => i < 2, fun _ => none, fun _ => 0⟩
  twice := false
  closed := []

/-- Everything succeeds. -/
def Input.fine : Input := ⟨true, true, 0, some 7, .ok, .ok, some 8, true, true, true⟩

/-- A connect to a host that lwIP has no route to. -/
theorem failed_connect_leaves_nothing :
    LeavesNothing .init (Request.run .init (.tcpConnect { Input.fine with connect := .lwip 4 })) :=
  (failed_request_leaves_nothing_iff .init (.tcpConnect { Input.fine with connect := .lwip 4 })
    ⟨fun _ _ => rfl, fun _ _ => rfl⟩).mpr trivial

/-- A listen on a port that cannot be bound leaves its control block; an accept without a ring leaves its handler;
    a UDP connect whose response is not sent leaves both. -/
theorem failed_request_leaves :
    ¬ LeavesNothing .init (Request.run .init (.tcpListen { Input.fine with bind := .lwip 8 })) ∧
    ¬ LeavesNothing (Svc.init.setListen 0 ⟨.tcp, 8, 0, 0⟩)
      (Request.run (Svc.init.setListen 0 ⟨.tcp, 8, 0, 0⟩) (.accepted 0 9 .ok { Input.fine with f2aMem := false })) ∧
    ¬ LeavesNothing .init (Request.run .init (.udpConnect { Input.fine with cfm := false })) := by
  refine ⟨?_, ?_, ?_⟩
  · rw [tcpListen_leaves_iff _ ⟨fun _ _ => rfl, fun _ _ => rfl⟩]
    intro h
    exact absurd (h rfl rfl (by decide)).1 (by decide)
  · rw [accepted_leaves_iff]
    intro h
    exact (h (by decide) rfl rfl (by decide)).1 rfl
  · rw [udpConnect_leaves_iff _ ⟨fun _ _ => rfl, fun _ _ => rfl⟩]
    intro h
    exact absurd (h rfl rfl (by decide) rfl rfl (by decide) (Option.some_ne_none _))
      (by decide)

end Qcc730.DataSvc
