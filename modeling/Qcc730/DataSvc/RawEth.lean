import Qcc730.DataSvc.Handlers

/-! Frames of raw Ethernet connections.

    A frame belongs to the connection with its ethertype, its remote address and the local address of its interface.
    The connection is looked for in the table of all connections, with one pointer for the candidate and for the
    result. -/

namespace Qcc730.DataSvc

/-- What the look-up reads besides the handlers: their `qos`, and the address of each interface. -/
structure RawEth where
  svc : Svc
  qos : ℕ → ℕ
  /-- `netif_get_by_index`, and `hwaddr` of what it returns -/
  hwaddr : ℕ → Option ℕ
  /-- `gb_loopback_state` -/
  loopback : Bool
  /-- `is_raweth_perf_test_in_progress` -/
  perfTest : Bool

/-- `MAX_AC_NUM` -/
def maxAcNum : ℕ := 4

/-- `sizeof(ethernet_header_t)` -/
def ethernetHeaderSize : ℕ := 14

/-- What a frame is looked up by. -/
structure EthKey where
  ethType : ℕ
  localMac : ℕ
  remoteMac : ℕ
  deriving DecidableEq, Repr

/-- `ethernet_header_t`, with `usFrameType` in the order of the host. -/
structure EthernetHeader where
  destinationAddress : ℕ
  sourceAddress : ℕ
  frameType : ℕ
  deriving DecidableEq, Repr

namespace RawEth

/-- The loop of `get_conn_handle_from_eth_type` from the index `idx` on, with the pointer as the index of its entry.
    No result when the interface of an entry is not there. -/
def scan (t : RawEth) (key : EthKey) : ℕ → ℕ → Option ℕ → Option (Option ℕ)
  | 0, _, connHandle => some connHandle
  | passes + 1, idx, _ =>
    match t.svc.connFromId idx with
    | none => scan t key passes (idx + 1) none
    | some h =>
      match t.hwaddr h.netifId with
      | none => none
      | some hwaddr =>
        if h.ethType = key.ethType ∧ key.remoteMac = h.destMac ∧ key.localMac = hwaddr then some (some idx)
        else scan t key passes (idx + 1) (some idx)

/-- `get_conn_handle_from_eth_type` -/
def getConnHandleFromEthType (t : RawEth) (key : EthKey) : Option (Option ℕ) := t.scan key dataSvcMaxConn 0 none

/-- `data_svc_get_qos_for_non_ip`: the frame is to be sent. -/
def getQosForNonIp (t : RawEth) (hdr : EthernetHeader) : Option ℕ :=
  (t.getConnHandleFromEthType ⟨hdr.frameType, hdr.sourceAddress, hdr.destinationAddress⟩).map fun
    | some i => t.qos i
    | none => maxAcNum

/-- What is attached to an F2A ring. -/
structure Attached where
  ring : Option ℕ
  len : ℕ
  info : ℕ
  deriving DecidableEq, Repr

/-- `data_svc_recv_raweth_data_pkt` for a buffer of `len` bytes: the error code, and what is attached. `attach` says
    whether the ring takes the frame, `output` is what `nt_low_level_output` returns. -/
def recvRawethDataPkt (t : RawEth) (hdr : EthernetHeader) (netif : ℕ) (len : ℕ) (attach : Bool) (output : Err) :
    Option (Err × Option Attached) :=
  if t.loopback then
    if t.hwaddr netif ≠ some hdr.destinationAddress then some (.lwip 4, none) else some (output, none)
  else
    match t.getConnHandleFromEthType ⟨hdr.frameType, hdr.destinationAddress, hdr.sourceAddress⟩ with
    | none => none
    | some none => some (.arg, none)
    | some (some i) =>
      if t.perfTest then some (.ok, none)
      else if attach then some (.ok, some
          ⟨(t.svc.connFromId i).bind ConnHandler.f2aRingId, (len + 2 ^ 16 - ethernetHeaderSize) % 2 ^ 16, i⟩)
      else some (.mem, none)

/-! ### Connections that match -/

/-- The handler has the ethertype and the addresses, whatever its type is. -/
def Fits (t : RawEth) (key : EthKey) (h : ConnHandler) : Prop :=
  h.ethType = key.ethType ∧ h.destMac = key.remoteMac ∧ t.hwaddr h.netifId = some key.localMac

instance (t : RawEth) (key : EthKey) (h : ConnHandler) : Decidable (t.Fits key h) :=
  inferInstanceAs (Decidable (_ ∧ _ ∧ _))

/-- A live raw Ethernet connection that the frame is for. -/
def Matching (t : RawEth) (key : EthKey) (i : ℕ) : Prop :=
  ∃ h, t.svc.connFromId i = some h ∧ h.type = .rawEther ∧ t.Fits key h

/-- The entry does not stop the loop: it is free, or its interface is there and it is not the one. -/
def Passed (t : RawEth) (key : EthKey) (i : ℕ) : Prop :=
  ∀ h, t.svc.connFromId i = some h → t.hwaddr h.netifId ≠ none ∧ ¬ t.Fits key h

/-- A frame goes to a matching connection or to none. -/
structure Right (t : RawEth) (key : EthKey) : Prop where
  lookup : ∃ r, t.getConnHandleFromEthType key = some r ∧
    match r with
    | some i => t.Matching key i
    | none => ∀ i, ¬ t.Matching key i
  /-- nothing is attached for a frame of no connection, and outside of the loopback test the caller is told -/
  recv : (∀ i, ¬ t.Matching key i) → ∀ netif len attach output, ∃ err,
    t.recvRawethDataPkt ⟨key.localMac, key.remoteMac, key.ethType⟩ netif len attach output = some (err, none) ∧
      (t.loopback = false → err = .arg)
  qos : (∀ i, ¬ t.Matching key i) → t.getQosForNonIp ⟨key.remoteMac, key.localMac, key.ethType⟩ = some maxAcNum

/-- The first entry that fits is a raw Ethernet connection; or none fits and the last entry is free. The interfaces of
    the entries before are there. -/
def RightWhen (t : RawEth) (key : EthKey) : Prop :=
  (∃ i, t.Matching key i ∧ ∀ j < i, t.Passed key j) ∨
    (∀ j < dataSvcMaxConn, t.Passed key j) ∧ t.svc.connFromId (dataSvcMaxConn - 1) = none

/-! ### The loop -/

variable {t : RawEth} {key : EthKey}

theorem scan_passed {n idx : ℕ} {p : Option ℕ} (h : t.Passed key idx) :
    t.scan key (n + 1) idx p = t.scan key n (idx + 1) ((t.svc.connFromId idx).map fun _ => idx) := by
  rw [scan]
  cases he : t.svc.connFromId idx with
  | none => rfl
  | some e =>
    obtain ⟨hnetif, hfits⟩ := h e he
    obtain ⟨mac, hmac⟩ := Option.ne_none_iff_exists'.mp hnetif
    have hother : ¬ (e.ethType = key.ethType ∧ key.remoteMac = e.destMac ∧ key.localMac = mac) :=
      fun ⟨h1, h2, h3⟩ => hfits ⟨h1, h2.symm, by rw [hmac, h3]⟩
    simp only [hmac, if_neg hother, Option.map_some]

/-- Entries that do not stop the loop are left behind. -/
theorem scan_skip {n idx d : ℕ} {p : Option ℕ} (h : ∀ j, idx ≤ j → j < idx + d → t.Passed key j) :
    t.scan key (d + n) idx p =
      t.scan key n (idx + d) (if d = 0 then p else (t.svc.connFromId (idx + d - 1)).map fun _ => idx + d - 1) := by
  induction d generalizing n with
  | zero => simp
  | succ d ih =>
    have hlast := h (idx + d) (by omega) (by omega)
    rw [show d + 1 + n = d + (n + 1) by omega, ih fun j hj hlt => h j hj (by omega), scan_passed hlast,
      if_neg (Nat.succ_ne_zero d)]
    rfl

/-- After a loop in which no entry stops it the pointer is that of the last entry. -/
theorem lookup_miss (h : ∀ j < dataSvcMaxConn, t.Passed key j) :
    t.getConnHandleFromEthType key =
      some ((t.svc.connFromId (dataSvcMaxConn - 1)).map fun _ => dataSvcMaxConn - 1) := by
  have hall : ∀ j, 0 ≤ j → j < 0 + dataSvcMaxConn → t.Passed key j := fun j _ hlt => h j (by omega)
  have := scan_skip hall (n := 0) (p := none)
  rw [Nat.add_zero, Nat.zero_add, if_neg (by decide)] at this
  rw [getConnHandleFromEthType, this, scan]

/-- The first entry that stops the loop decides. -/
theorem lookup_first {i : ℕ} {e : ConnHandler} (hi : i < dataSvcMaxConn) (h : ∀ j < i, t.Passed key j)
    (he : t.svc.connFromId i = some e) :
    (t.Fits key e → t.getConnHandleFromEthType key = some (some i)) ∧
    (t.hwaddr e.netifId = none → t.getConnHandleFromEthType key = none) := by
  obtain ⟨n, hn⟩ : ∃ n, dataSvcMaxConn = i + (n + 1) := ⟨dataSvcMaxConn - i - 1, by omega⟩
  rw [getConnHandleFromEthType, hn, scan_skip fun j _ hlt => h j (by omega), Nat.zero_add, scan, he]
  constructor
  · rintro ⟨h1, h2, h3⟩
    simp only [h3]
    exact if_pos ⟨h1, h2.symm, trivial⟩
  · intro hnone
    simp only [hnone]

/-- Either no entry stops the loop, or a first one does. -/
theorem first_or_passed (t : RawEth) (key : EthKey) :
    (∀ j < dataSvcMaxConn, t.Passed key j) ∨
      ∃ i e, i < dataSvcMaxConn ∧ (∀ j < i, t.Passed key j) ∧ t.svc.connFromId i = some e ∧
        (t.hwaddr e.netifId = none ∨ t.Fits key e) := by
  by_cases hall : ∀ j < dataSvcMaxConn, t.Passed key j
  · exact .inl hall
  · right
    push Not at hall
    classical
    have hex : ∃ j, j < dataSvcMaxConn ∧ ¬ t.Passed key j := hall
    obtain ⟨hi, hstop⟩ := Nat.find_spec hex
    rw [Passed] at hstop
    push Not at hstop
    obtain ⟨e, he, hnot⟩ := hstop
    refine ⟨Nat.find hex, e, hi, fun j hj => ?_, he, ?_⟩
    · by_contra hj'
      exact Nat.find_min hex hj ⟨hj.trans hi, hj'⟩
    · by_cases hnetif : t.hwaddr e.netifId = none
      · exact .inl hnetif
      · exact .inr (hnot hnetif)

theorem Matching.lt {i : ℕ} (h : t.Matching key i) : i < dataSvcMaxConn := by
  obtain ⟨e, he, -⟩ := h
  rw [Svc.connFromId] at he
  split at he
  · assumption
  · cases he

/-- The look-up alone. -/
theorem lookup_right_iff :
    (∃ r, t.getConnHandleFromEthType key = some r ∧
      match r with
      | some i => t.Matching key i
      | none => ∀ i, ¬ t.Matching key i) ↔ t.RightWhen key := by
  constructor
  · rintro ⟨r, hr, hright⟩
    obtain hall | ⟨i, e, hi, hbefore, he, hstop⟩ := first_or_passed t key
    · refine .inr ⟨hall, ?_⟩
      by_contra hlast
      obtain ⟨e, he⟩ := Option.ne_none_iff_exists'.mp hlast
      rw [lookup_miss hall, he] at hr
      obtain rfl := Option.some.inj hr
      obtain ⟨e', he', -, hfits⟩ := hright
      exact (hall (dataSvcMaxConn - 1) (by decide) e' he').2 hfits
    · obtain hnone | hfits := hstop
      · rw [(lookup_first hi hbefore he).2 hnone] at hr
        cases hr
      · rw [(lookup_first hi hbefore he).1 hfits] at hr
        obtain rfl := Option.some.inj hr
        exact .inl ⟨i, hright, hbefore⟩
  · rintro (⟨i, hmatch, hbefore⟩ | ⟨hall, hlast⟩)
    · have hi := hmatch.lt
      obtain ⟨e, he, htype, hfits⟩ := hmatch
      exact ⟨some i, (lookup_first hi hbefore he).1 hfits, e, he, htype, hfits⟩
    · refine ⟨none, ?_, fun i hmatch => ?_⟩
      · rw [lookup_miss hall, hlast]
        rfl
      · have hi := hmatch.lt
        obtain ⟨e, he, -, hfits⟩ := hmatch
        exact (hall i hi e he).2 hfits

/-- A frame goes to a matching connection or to none exactly under the condition. -/
theorem right_iff_rightWhen (t : RawEth) (key : EthKey) : t.Right key ↔ t.RightWhen key := by
  constructor
  · exact fun h => lookup_right_iff.mp h.lookup
  · intro h
    obtain ⟨r, hr, hright⟩ := lookup_right_iff.mpr h
    have hnone : (∀ i, ¬ t.Matching key i) → t.getConnHandleFromEthType key = some none := by
      intro hno
      cases r with
      | none => exact hr
      | some i => exact absurd hright (hno i)
    refine ⟨⟨r, hr, hright⟩, fun hno netif len attach output => ?_, fun hno => ?_⟩
    · rw [recvRawethDataPkt]
      split
      · rename_i hloop
        split
        · exact ⟨_, rfl, fun h => absurd (hloop.symm.trans h) (by decide)⟩
        · exact ⟨_, rfl, fun h => absurd (hloop.symm.trans h) (by decide)⟩
      · rw [hnone hno]
        exact ⟨_, rfl, fun _ => rfl⟩
    · rw [getQosForNonIp, hnone hno]
      rfl

end RawEth

/-! ### A full table -/

/-- A table of 64 connections, all of them but the last for TCP. -/
def fullTable : RawEth where
  svc :=
    { conns := fun i => some { ConnHandler.zero with
        type := if i = 63 then .rawEther else .tcp, netifId := 1, f2aRingId := some 5
        ethType := if i = 63 then 0x88B5 else 0, destMac := if i = 63 then 0xA1 else 0 }
      listens := fun _ => none
      pcbs := fun _ => false
      a2f := ⟨8, fun _ => true, fun _ => none, fun _ => 0⟩
      f2a := ⟨8, fun _ => true, fun _ => none, fun _ => 0⟩
      twice := false
      closed := [] }
  qos := fun _ => 1
  hwaddr := fun i => if i = 1 then some 0xB2 else none
  loopback := false
  perfTest := false

/-- A frame of another ethertype is attached for the last connection. -/
theorem full_table_not_right :
    fullTable.recvRawethDataPkt ⟨0xB2, 0xC3, 0x88CC⟩ 1 60 true .ok = some (.ok, some ⟨some 5, 46, 63⟩) ∧
    ¬ fullTable.Right ⟨0x88CC, 0xB2, 0xC3⟩ := by
  have hrecv : fullTable.recvRawethDataPkt ⟨0xB2, 0xC3, 0x88CC⟩ 1 60 true .ok = some (.ok, some ⟨some 5, 46, 63⟩) := by
    decide +kernel
  refine ⟨hrecv, fun h => ?_⟩
  have hno : ∀ i, ¬ fullTable.Matching ⟨0x88CC, 0xB2, 0xC3⟩ i := by
    rintro i ⟨e, he, -, htype, -⟩
    simp only [Svc.connFromId, fullTable, Option.ite_none_right_eq_some, Option.some.injEq] at he
    obtain ⟨-, rfl⟩ := he
    by_cases hi : i = 63
    · simp [hi] at htype
    · simp [hi] at htype
  obtain ⟨err, hout, -⟩ := h.recv hno 1 60 true .ok
  cases hrecv.symm.trans hout

end Qcc730.DataSvc
