import Qcc730.Hosted.Loader

/-! The buffers of the A2F ring of the hosted loader.

    Each element of the ring points at a receive buffer of its own. A data confirm takes the buffer away from its
    element until the data is written and gives it back then; the pass that finds the destination out of range
    stops before that, and the element stays without a buffer. The state here is the loader of `Hosted.Loader`
    with the ring; a run mixes passes of the loop with what the host does to the ring. -/

namespace Qcc730.Hosted
open Lib

/-- `MAX_NUMBER_OF_ELEMENTS`, and `NUMBER_OF_ELEMENTS` -/
def maxNumberOfElements : ℕ := 2

def a2fElementLen : ℕ := 0x6000
def boundaryElementLen : ℕ := 4
def buffStartAddr : ℕ := 0x10000

/-- `sizeof(wifi_fw_dfu_defaults_t)` -/
def dfuDefaultsLen : ℕ := 60

/-- `CONFIG_INFO_DFU` -/
def configInfoDfu : ℕ := 6

/-- `dfu_ring_element_t`; `none` is NULL. -/
structure DfuRingElement where
  pBuf : Option ℕ
  len : ℕ
  info : ℕ
  deriving DecidableEq, Repr

/-- The A2F ring of `dfu_ring_handle_t`. -/
structure A2fRing where
  dfuRingElement : ℕ → DfuRingElement
  dfuReadIdx : ℕ
  dfuWriteIdx : ℕ

/-- The buffer of an element. -/
def a2fBuf (index : ℕ) : ℕ := buffStartAddr + dfuDefaultsLen + index * (a2fElementLen + boundaryElementLen)

namespace A2fRing

/-- The ring with the element `index` set. -/
def setElement (r : A2fRing) (index : ℕ) (e : DfuRingElement) : A2fRing :=
  { r with dfuRingElement := fun i => if i = index then e else r.dfuRingElement i }

/-- `attach_buffer_to_element` -/
def attachBufferToElement (r : A2fRing) (index : ℕ) : A2fRing :=
  if index < maxNumberOfElements then r.setElement index ⟨some (a2fBuf index), a2fElementLen, configInfoDfu⟩ else r

/-- `detach_buffer_from_element` -/
def detachBufferFromElement (r : A2fRing) (index : ℕ) : A2fRing :=
  if index < maxNumberOfElements then
    r.setElement index { r.dfuRingElement index with pBuf := none, len := 0 }
  else r

/-- `increment_read_index` -/
def incrementReadIndex (r : A2fRing) : A2fRing := { r with dfuReadIdx := (r.dfuReadIdx + 1) % maxNumberOfElements }

/-- `len` of the element at the read index. -/
def resetLen (r : A2fRing) : A2fRing :=
  r.setElement r.dfuReadIdx { r.dfuRingElement r.dfuReadIdx with len := a2fElementLen }

/-- `init_ring_param` -/
def init : A2fRing :=
  (List.range maxNumberOfElements).foldl attachBufferToElement ⟨fun _ => ⟨none, 0, 0⟩, 0, 0⟩

/-- `recieve_dfu_req` and `recieve_dfu_transfer_done_rsp`: a message of another type stays where it is. -/
def recieveOfType (msgId : UInt16) (r : A2fRing) (m : Msg) : A2fRing :=
  if m.msgId = msgId then r.resetLen.incrementReadIndex else r

/-- `recieve_dfu_data_transfer_confirm`, with the `index` of its descriptor, 0 for a message of another type. -/
def recieveDfuDataTransferConfirm (r : A2fRing) (m : Msg) : A2fRing × ℕ :=
  if m.msgId = a2fDfuDataTransferCfm then
    ((r.detachBufferFromElement r.dfuReadIdx).incrementReadIndex, r.dfuReadIdx)
  else (r.incrementReadIndex, 0)

/-- WAIT_FOR_PROGRAM. -/
def waitForProgram (bdfAddr : UInt32) (c : LoaderCntxt) (r : A2fRing) (m : Msg) : A2fRing :=
  let recieved := r.recieveDfuDataTransferConfirm m
  if Loader.inRange c (Loader.destination bdfAddr c) then recieved.1.attachBufferToElement recieved.2
  -- the `break` after the message about the destination
  else recieved.1

end A2fRing

/-! ### Runs -/

/-- The loader and its A2F ring. -/
structure Dfu where
  loader : Loader
  ring : A2fRing

/-- What a pass finds: the bytes in the buffer of the element at the read index, the result of
    `check_config_table_integrity`, and whether the F2A ring has room. -/
structure Pass where
  msg : Msg
  tableIntact : Bool
  room : Bool

/-- The loader makes a pass, or the host posts messages: it moves the write index and writes the fields of elements
    other than their address. -/
inductive Action where
  | pass (p : Pass)
  | host (dfuWriteIdx : ℕ) (len info : ℕ → ℕ)

namespace Dfu

/-- After `init_config_table`. -/
def init (rram : ℕ → UInt8) : Dfu := ⟨Loader.init rram, A2fRing.init⟩

/-- `a2f_dfu_ring_check_empty` -/
def a2fDfuRingCheckEmpty (r : A2fRing) (tableIntact : Bool) : Bool :=
  if tableIntact then r.dfuReadIdx == r.dfuWriteIdx else true

/-- The pass as the loop of the loader sees it. -/
def poll (s : Dfu) (p : Pass) : Poll :=
  ⟨if a2fDfuRingCheckEmpty s.ring p.tableIntact then none else some p.msg, p.room⟩

/-- What a pass does to the ring. -/
def passRing (bdfAddr : UInt32) (s : Dfu) (p : Pass) : A2fRing :=
  if s.loader.result.isSome then s.ring
  else
    match (s.poll p).a2f with
    | none => s.ring
    | some m =>
      match s.loader.state with
      | .waitForDfu => s.ring.recieveOfType a2fDfuReq m
      | .waitForProgram => s.ring.waitForProgram bdfAddr s.loader.cntxt m
      | .resourceTransferConfirm => s.ring.recieveOfType a2fDfuDataTransferDoneRsp m
      | _ => s.ring

/-- One action. -/
def act (bdfAddr : UInt32) (s : Dfu) : Action → Dfu
  | .pass p => ⟨s.loader.step bdfAddr (s.poll p), s.passRing bdfAddr p⟩
  | .host w len info =>
    { s with ring :=
        { s.ring with
          dfuRingElement := fun i => { s.ring.dfuRingElement i with len := len i, info := info i }
          dfuWriteIdx := w } }

end Dfu

/-! ### Attached elements -/

namespace A2fRing

variable {r : A2fRing}

/-- The element holds a message of the host that the loader has not taken yet. -/
def HostOwned (r : A2fRing) (index : ℕ) : Prop :=
  (index + maxNumberOfElements - r.dfuReadIdx) % maxNumberOfElements <
    (r.dfuWriteIdx + maxNumberOfElements - r.dfuReadIdx) % maxNumberOfElements

/-- The element points at its own buffer. -/
def Attached (r : A2fRing) (index : ℕ) : Prop := (r.dfuRingElement index).pBuf = some (a2fBuf index)

/-- Every element that is not the host's points at its own buffer. -/
def Deliverable (r : A2fRing) : Prop := ∀ i < maxNumberOfElements, ¬r.HostOwned i → r.Attached i

instance (r : A2fRing) (i : ℕ) : Decidable (r.HostOwned i) := inferInstanceAs (Decidable (_ < _))

instance (r : A2fRing) (i : ℕ) : Decidable (r.Attached i) := inferInstanceAs (Decidable (_ = _))

instance (r : A2fRing) : Decidable r.Deliverable := inferInstanceAs (Decidable (∀ i < _, _))

/-- The invariant: every element has its buffer, and the read index is one of the ring. -/
structure Whole (r : A2fRing) : Prop where
  attached : ∀ i < maxNumberOfElements, r.Attached i
  read_lt : r.dfuReadIdx < maxNumberOfElements

theorem Whole.deliverable (h : r.Whole) : r.Deliverable := fun i hi _ => h.attached i hi

theorem init_whole : init.Whole := ⟨by decide, by decide⟩

@[simp] theorem setElement_self (r : A2fRing) (i : ℕ) (e : DfuRingElement) :
    (r.setElement i e).dfuRingElement i = e := if_pos rfl

theorem setElement_other (r : A2fRing) {i j : ℕ} (e : DfuRingElement) (h : j ≠ i) :
    (r.setElement i e).dfuRingElement j = r.dfuRingElement j := if_neg h

theorem attach_attached (r : A2fRing) {index : ℕ} (h : index < maxNumberOfElements) :
    (r.attachBufferToElement index).Attached index := by
  rw [Attached, attachBufferToElement, if_pos h, setElement_self]

/-- Attaching leaves the other elements. -/
theorem attach_other (r : A2fRing) {index i : ℕ} (h : i ≠ index) :
    (r.attachBufferToElement index).dfuRingElement i = r.dfuRingElement i := by
  rw [attachBufferToElement]
  split_ifs
  · exact r.setElement_other _ h
  · rfl

theorem detach_other (r : A2fRing) {index i : ℕ} (h : i ≠ index) :
    (r.detachBufferFromElement index).dfuRingElement i = r.dfuRingElement i := by
  rw [detachBufferFromElement]
  split_ifs
  · exact r.setElement_other _ h
  · rfl

theorem detach_detached (r : A2fRing) {index : ℕ} (h : index < maxNumberOfElements) :
    ((r.detachBufferFromElement index).dfuRingElement index).pBuf = none := by
  rw [detachBufferFromElement, if_pos h, setElement_self]

@[simp] theorem attach_read (r : A2fRing) (i : ℕ) : (r.attachBufferToElement i).dfuReadIdx = r.dfuReadIdx := by
  rw [attachBufferToElement]
  split_ifs <;> rfl

@[simp] theorem detach_read (r : A2fRing) (i : ℕ) : (r.detachBufferFromElement i).dfuReadIdx = r.dfuReadIdx := by
  rw [detachBufferFromElement]
  split_ifs <;> rfl

@[simp] theorem detach_write (r : A2fRing) (i : ℕ) : (r.detachBufferFromElement i).dfuWriteIdx = r.dfuWriteIdx := by
  rw [detachBufferFromElement]
  split_ifs <;> rfl

theorem Whole.increment (h : r.Whole) : r.incrementReadIndex.Whole :=
  ⟨h.attached, Nat.mod_lt _ (by decide)⟩

theorem Whole.resetLen (h : r.Whole) : r.resetLen.Whole := by
  refine ⟨fun i hi => ?_, h.read_lt⟩
  by_cases hr : i = r.dfuReadIdx
  · rw [hr] at hi ⊢
    rw [Attached, A2fRing.resetLen, setElement_self]
    exact h.attached _ hi
  · rw [Attached, A2fRing.resetLen, r.setElement_other _ hr]
    exact h.attached i hi

theorem Whole.recieveOfType (h : r.Whole) (msgId : UInt16) (m : Msg) : (r.recieveOfType msgId m).Whole := by
  rw [A2fRing.recieveOfType]
  split_ifs
  · exact h.resetLen.increment
  · exact h

/-- An element that is attached again makes up for its detaching. -/
theorem Whole.reattach (h : r.Whole) (index : ℕ) :
    ((r.detachBufferFromElement index).incrementReadIndex.attachBufferToElement index).Whole := by
  refine ⟨fun i hi => ?_, ?_⟩
  · by_cases hindex : i = index
    · rw [← hindex]
      exact attach_attached _ hi
    · rw [Attached, attach_other _ hindex]
      refine (congrArg DfuRingElement.pBuf (detach_other r hindex)).trans ?_
      exact h.attached i hi
  · rw [attach_read]
    exact Nat.mod_lt _ (by decide)

theorem Whole.attach (h : r.Whole) (index : ℕ) : (r.attachBufferToElement index).Whole := by
  refine ⟨fun i hi => ?_, (attach_read r index).symm ▸ h.read_lt⟩
  by_cases hindex : i = index
  · rw [← hindex]
    exact attach_attached _ hi
  · rw [Attached, attach_other _ hindex]
    exact h.attached i hi

/-- A pass in WAIT_FOR_PROGRAM that gets to the write, or that takes no data confirm. -/
theorem Whole.waitForProgram (h : r.Whole) {bdfAddr : UInt32} {c : LoaderCntxt} {m : Msg}
    (hgood : m.msgId = a2fDfuDataTransferCfm → Loader.inRange c (Loader.destination bdfAddr c) = true) :
    (r.waitForProgram bdfAddr c m).Whole := by
  rw [A2fRing.waitForProgram, recieveDfuDataTransferConfirm]
  by_cases hm : m.msgId = a2fDfuDataTransferCfm
  · rw [if_pos (hgood hm), if_pos hm]
    exact h.reattach r.dfuReadIdx
  · rw [if_neg hm]
    split_ifs
    · exact h.increment.attach 0
    · exact h.increment

/-- The element whose confirm was taken and not written is no longer the host's, and has no buffer. -/
theorem waitForProgram_lost {bdfAddr : UInt32} {c : LoaderCntxt} {m : Msg} (hlt : r.dfuReadIdx < maxNumberOfElements)
    (hm : m.msgId = a2fDfuDataTransferCfm)
    (hout : Loader.inRange c (Loader.destination bdfAddr c) = false) :
    ¬(r.waitForProgram bdfAddr c m).Deliverable := by
  intro h
  have hring : r.waitForProgram bdfAddr c m = (r.detachBufferFromElement r.dfuReadIdx).incrementReadIndex := by
    rw [A2fRing.waitForProgram, recieveDfuDataTransferConfirm, if_pos hm, if_neg (by rw [hout]; decide)]
  rw [hring] at h
  have hfree : ¬(r.detachBufferFromElement r.dfuReadIdx).incrementReadIndex.HostOwned r.dfuReadIdx := by
    simp only [HostOwned, incrementReadIndex, detach_read, detach_write, maxNumberOfElements] at hlt ⊢
    omega
  have hnull : _ = some (a2fBuf r.dfuReadIdx) := h r.dfuReadIdx hlt hfree
  exact absurd ((detach_detached r hlt).symm.trans hnull) (by simp)

end A2fRing

/-! ### Every run -/

/-- A pass in WAIT_FOR_PROGRAM takes a data confirm although its destination fails the test before the write. -/
def Dfu.TakesOutOfRange (bdfAddr : UInt32) (s : Dfu) : Action → Prop
  | .host .. => False
  | .pass p => s.loader.result = none ∧ s.loader.state = .waitForProgram ∧
    Dfu.a2fDfuRingCheckEmpty s.ring p.tableIntact = false ∧ p.msg.msgId = a2fDfuDataTransferCfm ∧
      Loader.inRange s.loader.cntxt (Loader.destination bdfAddr s.loader.cntxt) = false

namespace Dfu

variable {bdfAddr : UInt32} {s : Dfu}

theorem act_whole (h : s.ring.Whole) {a : Action} (ha : ¬s.TakesOutOfRange bdfAddr a) :
    (s.act bdfAddr a).ring.Whole := by
  cases a with
  | host w len info => exact ⟨h.attached, h.read_lt⟩
  | pass p =>
    show (s.passRing bdfAddr p).Whole
    rw [passRing, poll]
    by_cases hres : s.loader.result.isSome
    · rwa [if_pos hres]
    rw [if_neg hres]
    rcases hempty : a2fDfuRingCheckEmpty s.ring p.tableIntact with _ | _
    · rw [if_neg (by decide)]
      cases hst : s.loader.state with
      | waitForDfu => exact h.recieveOfType _ _
      | resourceTransferConfirm => exact h.recieveOfType _ _
      | waitForProgram =>
        refine h.waitForProgram fun hm => ?_
        by_contra hout
        exact ha ⟨Option.not_isSome_iff_eq_none.mp hres, hst, hempty, hm, Bool.eq_false_of_not_eq_true hout⟩
      | _ => exact h
    · rwa [if_pos rfl]

theorem act_lost (h : s.ring.Whole) {a : Action} (ha : s.TakesOutOfRange bdfAddr a) :
    ¬(s.act bdfAddr a).ring.Deliverable := by
  cases a with
  | host w len info => exact ha.elim
  | pass p =>
    obtain ⟨hres, hst, hempty, hm, hout⟩ := ha
    show ¬(s.passRing bdfAddr p).Deliverable
    have hnone : ¬s.loader.result.isSome := by
      rw [hres]
      decide
    rw [passRing, if_neg hnone, poll, hempty, hst]
    exact A2fRing.waitForProgram_lost h.read_lt hm hout

/-- After every action of a run all elements that are not the host's have their buffers, exactly if no pass takes
    a data confirm whose destination is out of range. -/
theorem ring_deliverable_iff (bdfAddr : UInt32) (rram : ℕ → UInt8) (actions : List Action) :
    Along (act bdfAddr) (fun s a => (s.act bdfAddr a).ring.Deliverable) (init rram) actions ↔
      Along (act bdfAddr) (fun s a => ¬s.TakesOutOfRange bdfAddr a) (init rram) actions := by
  exact Along.iff (I := fun s => s.ring.Whole) (fun s a hs (_ : True) ha => act_whole hs ha)
    (fun s a hs _ => ⟨fun h ha => act_lost hs ha h, fun ha => (act_whole hs ha).deliverable⟩) A2fRing.init_whole
    (along_true _ actions)

/-- The host posts one message after the other: the requests of the loader are answered as they come. -/
def posts (msgs : List Msg) : List Action :=
  msgs.zipIdx.flatMap fun (m, k) =>
    [.host ((k + 1) % 2) (fun _ => 0) fun _ => configInfoDfu, .pass ⟨m, true, true⟩, .pass ⟨m, true, true⟩]

/-- A start request for a BDF image of 27 chunks, and 26 confirms without data. -/
def oversizedBdf : List Action :=
  posts (⟨a2fDfuReq, 0x6C00, 4, 0, fun _ => 0⟩ :: List.replicate 26 ⟨a2fDfuDataTransferCfm, 0, 0, 4, fun _ => 0⟩)

/-- An image longer than its region costs an element of the ring. -/
theorem element_lost :
    ¬∀ actions : List Action,
      Along (act 0x37A000) (fun s a => (s.act 0x37A000 a).ring.Deliverable) (init fun _ => 0) actions := by
  intro h
  exact absurd (h oversizedBdf) (by decide +kernel)

end Dfu

end Qcc730.Hosted
