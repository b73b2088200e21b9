import Qcc730.Lib.Reach
import Qcc730.Ring.Context

/-! The tables of rings.

    There is a table of contexts and there are two arrays of index bytes for each direction. A ring is made in the
    first free entry of its table, with a block of the heap for its elements, and keeps its entry until it is
    deleted. The index bytes stay where they are: the host may write those it owns at any time. -/

namespace Qcc730.Ring
open Lib

/-- `RING_DIR`. -/
inductive RingDir where
  | a2f
  | f2a
  deriving DecidableEq, Repr

/-- `RING_STATE_ENUM`. -/
inductive RingState where
  | invalid
  | inUse
  deriving DecidableEq, Repr

/-- `DATA_RING_TCP`, `DATA_RING_UDP`, `DATA_RING_RAWETH`. -/
inductive DataRing where
  | tcp
  | udp
  | raweth
  deriving DecidableEq, Repr

/-- The functions a ring is used with come in families: those of the control rings, of the HFC rings and of each type
    of data ring. A pointer to a function is the family here. -/
inductive RingUser where
  | ctrl
  | hfc
  | data (type : DataRing)
  deriving DecidableEq, Repr

/-- `ring_ctx_t` as it lies in its table. A pointer to an index byte is the place in the array, and `none` is NULL. -/
structure CtxEntry where
  pRingBase : ℕ
  pWriteIdx : Option ℕ
  pReadIdx : Option ℕ
  ringState : RingState
  ringId : ℕ
  ringElemSize : ℕ
  ringNumElem : ℕ
  ringIdxToClear : ℕ
  ringIdxClearPending : Bool
  pfnPost2thread : Option RingUser
  deriving DecidableEq, Repr

/-- `memset(p_ring_ctx, 0x00, sizeof(ring_ctx_t))`; RING_STATE_INVALID is 0. -/
def CtxEntry.zero : CtxEntry := ⟨0, none, none, .invalid, 0, 0, 0, 0, false, none⟩

/-- A buffer that was passed to a clear function, or was supplied by a refill function. -/
structure Handled where
  dir : RingDir
  ringId : ℕ
  idx : ℕ
  /-- the family of the ring, by the function that posts its updates -/
  owner : Option RingUser
  /-- the family of the function -/
  fn : RingUser
  deriving DecidableEq, Repr

/-- The tables, the arrays of indices, and the blocks of the heap that hold elements. -/
structure Tables where
  /-- `g_a2f_ring_ctx` and `g_f2a_ring_ctx` -/
  ctx : RingDir → ℕ → CtxEntry
  /-- `g_a2f_ring0_index_array` and `g_f2a_ring0_index_array`: the write indices -/
  index : RingDir → ℕ → ℕ
  /-- `g_a2f_ring0_outdex_array` and `g_f2a_ring0_outdex_array`: the read indices -/
  outdex : RingDir → ℕ → ℕ
  /-- the elements in each block -/
  elem : ℕ → ℕ → Element
  /-- the blocks that are allocated -/
  live : List ℕ
  /-- every block that was passed to `nt_osal_free_memory`, in order -/
  released : List ℕ
  /-- every buffer that was passed to a clear function by a deletion, in order -/
  cleared : List Handled

namespace Tables

/-- The tables at boot. -/
def boot : Tables :=
  ⟨fun _ _ => .zero, fun _ _ => 0, fun _ _ => 0, fun _ _ => .zero, [], [], []⟩

/-- The firmware writes the read index of an A2F ring and the write index of an F2A ring. -/
def fwIdx (t : Tables) (id : ℕ) : RingDir → ℕ
  | .a2f => t.outdex .a2f id
  | .f2a => t.index .f2a id

/-- The host writes the other one. -/
def hostIdx (t : Tables) (id : ℕ) : RingDir → ℕ
  | .a2f => t.index .a2f id
  | .f2a => t.outdex .f2a id

/-- One entry of an array that there is for each direction. -/
def upd {α : Type*} (f : RingDir → ℕ → α) (d : RingDir) (id : ℕ) (v : α) : RingDir → ℕ → α :=
  fun d' i => if d' = d ∧ i = id then v else f d' i

def setFwIdx (t : Tables) (d : RingDir) (id v : ℕ) : Tables :=
  match d with
  | .a2f => { t with outdex := upd t.outdex .a2f id v }
  | .f2a => { t with index := upd t.index .f2a id v }

def setHostIdx (t : Tables) (d : RingDir) (id v : ℕ) : Tables :=
  match d with
  | .a2f => { t with index := upd t.index .a2f id v }
  | .f2a => { t with outdex := upd t.outdex .f2a id v }

/-- A ring as `Ring.Context` has it; `none` if one of its pointers is NULL. -/
def ring (t : Tables) (d : RingDir) (id : ℕ) : Option RingCtx :=
  match (t.ctx d id).pWriteIdx, (t.ctx d id).pReadIdx with
  | some w, some r =>
    if (t.ctx d id).pRingBase = 0 then none
    else
      some
        { ringNumElem := (t.ctx d id).ringNumElem
          elem := t.elem (t.ctx d id).pRingBase
          writeIdx := t.index d w
          readIdx := t.outdex d r
          ringIdxToClear := (t.ctx d id).ringIdxToClear
          ringIdxClearPending := (t.ctx d id).ringIdxClearPending }
  | _, _ => none

/-- `ringif_ring_empty`, which takes a ring without pointers for empty. -/
def ringEmpty (t : Tables) (d : RingDir) (id : ℕ) : Bool := ((t.ring d id).map RingCtx.ringEmpty).getD true

/-- The first entry that is free. -/
def findFree (t : Tables) (maxNumRings : ℕ) (d : RingDir) : Option ℕ :=
  (List.range maxNumRings).find? fun id => decide ((t.ctx d id).ringState = .invalid)

/-- The index both sides start with. -/
def startIdx (t : Tables) (d : RingDir) (id maxNumElem : ℕ) : ℕ :=
  if t.hostIdx id d < maxNumElem then t.hostIdx id d else 0

/-- `ringif_create_a2f_ring` and `ringif_create_f2a_ring`; `alloc` is what `nt_osal_allocate_memory` returns, if it is
    called, and `none` is INVALID_RING_ID. -/
def createRing (t : Tables) (maxNumRings : ℕ) (d : RingDir) (pfnPost2thread : RingUser)
    (elemSize maxNumElem alloc : ℕ) : Option ℕ × Tables :=
  match t.findFree maxNumRings d with
  | none => (none, t)
  | some id =>
    if alloc = 0 then (none, { t with ctx := upd t.ctx d id .zero })
    else
      (some id,
        { t with
          ctx := upd t.ctx d id
            { pRingBase := alloc
              pWriteIdx := some id
              pReadIdx := some id
              ringState := .inUse
              ringId := id
              ringElemSize := elemSize
              ringNumElem := maxNumElem
              ringIdxToClear := if d = .f2a then t.startIdx d id maxNumElem else 0
              ringIdxClearPending := false
              pfnPost2thread := some pfnPost2thread }
          index := upd t.index d id (t.startIdx d id maxNumElem)
          outdex := upd t.outdex d id (t.startIdx d id maxNumElem)
          elem := Function.update t.elem alloc fun _ => .zero
          live := alloc :: t.live })

/-- The loop of `ringif_delete_ring` over the elements of `e`. -/
def clearElems (t : Tables) (d : RingDir) (id : ℕ) (pfnClearElem : RingUser) (e : CtxEntry) : List Handled :=
  (List.range e.ringNumElem).foldl (fun L elemCnt =>
    if (t.elem e.pRingBase elemCnt).pBuf ≠ 0 then L ++ [⟨d, id, elemCnt, e.pfnPost2thread, pfnClearElem⟩] else L) []

/-- `ringif_delete_ring`. What the clear functions write into the elements is lost with their block. -/
def deleteRing (t : Tables) (maxNumRings : ℕ) (d : RingDir) (id : ℕ) (pfnClearElem : RingUser) : Bool × Tables :=
  if maxNumRings ≤ id then (false, t)
  else if (t.ctx d id).ringState = .invalid then (false, t)
  else
    (true,
      { t with
        cleared := t.cleared ++ t.clearElems d id pfnClearElem (t.ctx d id)
        released := t.released ++ [(t.ctx d id).pRingBase]
        live := t.live.erase (t.ctx d id).pRingBase
        ctx := upd t.ctx d id .zero })

/-- `*(p_ring_ctx->p_read_idx) = *(p_ring_ctx->p_write_idx)` for an A2F ring, and the other way round for an F2A ring.
    If both pointers are NULL it is the byte at address 0 that is read and written back. -/
def syncFwIdx (t : Tables) (d : RingDir) (id : ℕ) : Tables :=
  match (t.ctx d id).pWriteIdx, (t.ctx d id).pReadIdx with
  | some w, some r =>
    match d with
    | .a2f => t.setFwIdx .a2f r (t.hostIdx w .a2f)
    | .f2a => t.setFwIdx .f2a w (t.hostIdx r .f2a)
  | _, _ => t

/-- `ringif_a2f_delete_ring` and `ringif_f2a_delete_ring`; `host` is what the host writes into its index while the
    buffers are cleared, if it does. -/
def deleteDirRing (t : Tables) (maxNumRings : ℕ) (d : RingDir) (id : ℕ) (pfnClearElem : RingUser)
    (host : Option ℕ) : Bool × Tables :=
  let deleted := t.deleteRing maxNumRings d id pfnClearElem
  let moved := (host.map (deleted.2.setHostIdx d id)).getD deleted.2
  if deleted.1 then (true, moved.syncFwIdx d id) else (false, moved)

end Tables

/-- What happens to the tables. -/
inductive TableAct where
  | create (d : RingDir) (pfnPost2thread : RingUser) (elemSize maxNumElem alloc : ℕ)
  | delete (d : RingDir) (id : ℕ) (pfnClearElem : RingUser) (host : Option ℕ)
  /-- the host writes its index -/
  | host (d : RingDir) (id v : ℕ)
  /-- the firmware writes its index -/
  | fw (d : RingDir) (id v : ℕ)
  /-- the elements of a ring change: buffers are attached, refilled, processed, cleared -/
  | elems (d : RingDir) (id : ℕ) (f : ℕ → Element)

namespace Tables

def act (maxNumRings : ℕ) (t : Tables) : TableAct → Tables
  | .create d post size n alloc => (t.createRing maxNumRings d post size n alloc).2
  | .delete d id fn host => (t.deleteDirRing maxNumRings d id fn host).2
  | .host d id v => t.setHostIdx d id v
  | .fw d id v => t.setFwIdx d id v
  | .elems d id f => { t with elem := Function.update t.elem (t.ctx d id).pRingBase f }

/-- The allocator returns NULL or a block that is not in use. -/
def Alloc (t : Tables) : TableAct → Prop
  | .create _ _ _ _ alloc => alloc = 0 ∨ alloc ∉ t.live
  | _ => True

/-! ### What a creation and a deletion are to do -/

/-- The ring is deleted: the firmware-owned index is that of the host, the context is invalid, its memory is
    released once, and every buffer that is attached is cleared once. -/
structure Deleted (d : RingDir) (id : ℕ) (t t' : Tables) : Prop where
  synced : t'.fwIdx id d = t'.hostIdx id d
  state : (t'.ctx d id).ringState = .invalid
  block : (t.ctx d id).pRingBase ∈ t.live ∧ (t.ctx d id).pRingBase ∉ t'.live
  released : t'.released = t.released ++ [(t.ctx d id).pRingBase]
  cleared : ∃ L : List Handled, t'.cleared = t.cleared ++ L ∧ (∀ h ∈ L, h.dir = d ∧ h.ringId = id) ∧
    (L.map Handled.idx).Nodup ∧
    ∀ i, i ∈ L.map Handled.idx ↔ i < (t.ctx d id).ringNumElem ∧ (t.elem (t.ctx d id).pRingBase i).pBuf ≠ 0

/-- The ring is made, without buffers and empty. -/
structure Created (d : RingDir) (id : ℕ) (t' : Tables) : Prop where
  state : (t'.ctx d id).ringState = .inUse
  synced : t'.fwIdx id d = t'.hostIdx id d
  empty : t'.ringEmpty d id = true
  ring : ∃ c, t'.ring d id = some c ∧ ∀ i, c.elem i = .zero

/-- What is done in a step is right. -/
def Right (maxNumRings : ℕ) (t : Tables) : TableAct → Prop
  | .create d post size n alloc =>
    ∀ id, (t.createRing maxNumRings d post size n alloc).1 = some id →
      Created d id (t.createRing maxNumRings d post size n alloc).2
  | .delete d id fn host =>
    (t.deleteDirRing maxNumRings d id fn host).1 = true → Deleted d id t (t.deleteDirRing maxNumRings d id fn host).2
  | _ => True

/-- A ring in use is deleted when the two indices agree: the one of the firmware and the one of the host at the end of
    the call. -/
def Agree (maxNumRings : ℕ) (t : Tables) : TableAct → Prop
  | .delete d id _ host =>
    id < maxNumRings → (t.ctx d id).ringState = .inUse → t.fwIdx id d = host.getD (t.hostIdx id d)
  | _ => True

/-! ### The operations -/

variable {t : Tables} {max id : ℕ} {d : RingDir} {post fn : RingUser} {size n alloc : ℕ}

@[simp] theorem upd_self {α : Type*} (f : RingDir → ℕ → α) (d : RingDir) (id : ℕ) (v : α) :
    upd f d id v d id = v := by
  simp [upd]

theorem upd_of_ne {α : Type*} {f : RingDir → ℕ → α} {d d' : RingDir} {id i : ℕ} {v : α}
    (h : ¬ (d' = d ∧ i = id)) : upd f d id v d' i = f d' i := by
  rw [upd, if_neg h]

@[simp] theorem setHostIdx_ctx (t : Tables) (d : RingDir) (id v : ℕ) : (t.setHostIdx d id v).ctx = t.ctx := by
  cases d <;> rfl

@[simp] theorem setHostIdx_live (t : Tables) (d : RingDir) (id v : ℕ) : (t.setHostIdx d id v).live = t.live := by
  cases d <;> rfl

@[simp] theorem setHostIdx_released (t : Tables) (d : RingDir) (id v : ℕ) :
    (t.setHostIdx d id v).released = t.released := by
  cases d <;> rfl

@[simp] theorem setHostIdx_cleared (t : Tables) (d : RingDir) (id v : ℕ) :
    (t.setHostIdx d id v).cleared = t.cleared := by
  cases d <;> rfl

@[simp] theorem setHostIdx_fwIdx (t : Tables) (d : RingDir) (id v : ℕ) :
    (t.setHostIdx d id v).fwIdx id d = t.fwIdx id d := by
  cases d <;> rfl

@[simp] theorem setHostIdx_hostIdx (t : Tables) (d : RingDir) (id v : ℕ) :
    (t.setHostIdx d id v).hostIdx id d = v := by
  cases d <;> simp [setHostIdx, hostIdx]

@[simp] theorem setFwIdx_ctx (t : Tables) (d : RingDir) (id v : ℕ) : (t.setFwIdx d id v).ctx = t.ctx := by
  cases d <;> rfl

@[simp] theorem setFwIdx_live (t : Tables) (d : RingDir) (id v : ℕ) : (t.setFwIdx d id v).live = t.live := by
  cases d <;> rfl

theorem inUse_of_ne_invalid {st : RingState} (h : st ≠ .invalid) : st = .inUse := by
  cases st with
  | invalid => exact absurd rfl h
  | inUse => rfl

/-- A new ring. -/
theorem createRing_eq {id : ℕ} (h : (t.createRing max d post size n alloc).1 = some id) :
    id < max ∧ (t.ctx d id).ringState = .invalid ∧ alloc ≠ 0 ∧
      (t.createRing max d post size n alloc).2 =
        { t with
          ctx := upd t.ctx d id
            ⟨alloc, some id, some id, .inUse, id, size, n, if d = .f2a then t.startIdx d id n else 0, false, some post⟩
          index := upd t.index d id (t.startIdx d id n)
          outdex := upd t.outdex d id (t.startIdx d id n)
          elem := Function.update t.elem alloc fun _ => .zero
          live := alloc :: t.live } := by
  cases hfree : t.findFree max d with
  | none =>
    simp only [createRing, hfree] at h
    exact absurd h.symm (Option.some_ne_none id)
  | some i =>
    by_cases ha : alloc = 0
    · simp only [createRing, hfree, if_pos ha] at h
      exact absurd h.symm (Option.some_ne_none id)
    · simp only [createRing, hfree, if_neg ha] at h ⊢
      obtain rfl : i = id := Option.some.inj h
      have hmem := List.mem_of_find?_eq_some hfree
      have hstate := List.find?_some hfree
      exact ⟨List.mem_range.mp hmem, of_decide_eq_true hstate, ha, rfl⟩

/-- A creation that fails leaves the tables as they are, but for an entry that was free and is zeroed. -/
theorem createRing_none (h : (t.createRing max d post size n alloc).1 = none) :
    (t.createRing max d post size n alloc).2 = t ∨
      ∃ id, (t.ctx d id).ringState = .invalid ∧
        (t.createRing max d post size n alloc).2 = { t with ctx := upd t.ctx d id .zero } := by
  cases hfree : t.findFree max d with
  | none => exact .inl (by simp only [createRing, hfree])
  | some i =>
    by_cases ha : alloc = 0
    · have hstate := List.find?_some hfree
      exact .inr ⟨i, of_decide_eq_true hstate, by simp only [createRing, hfree, if_pos ha]⟩
    · simp only [createRing, hfree, if_neg ha] at h
      exact absurd h (Option.some_ne_none i)

/-- The new ring is the one of `Ring.Context`, made from the index of the host. -/
theorem ring_createRing (h : (t.createRing max d post size n alloc).1 = some id) :
    (t.createRing max d post size n alloc).2.ring d id =
      some (match d with
        | .a2f => .createA2fRing n (t.hostIdx id .a2f)
        | .f2a => .createF2aRing n (t.hostIdx id .f2a)) := by
  obtain ⟨-, -, ha, heq⟩ := createRing_eq h
  rw [heq]
  simp only [ring, upd_self, if_neg ha, Function.update_self]
  cases d <;> rfl

theorem created (h : (t.createRing max d post size n alloc).1 = some id) :
    Created d id (t.createRing max d post size n alloc).2 := by
  have hring := ring_createRing h
  obtain ⟨-, -, ha, heq⟩ := createRing_eq h
  refine ⟨by rw [heq]; simp only [upd_self], by rw [heq]; cases d <;> simp [fwIdx, hostIdx], ?_, _, hring, ?_⟩
  · rw [ringEmpty, hring]
    cases d <;> simp [RingCtx.ringEmpty, RingCtx.createA2fRing, RingCtx.createF2aRing]
  · cases d <;> exact fun _ => rfl

/-- A deletion that finds a ring. -/
theorem deleteDirRing_eq {host : Option ℕ} (hid : id < max) (hs : (t.ctx d id).ringState ≠ .invalid) :
    t.deleteDirRing max d id fn host =
      (true, (host.map ((t.deleteRing max d id fn).2.setHostIdx d id)).getD (t.deleteRing max d id fn).2) := by
  have hdel : t.deleteRing max d id fn = (true, (t.deleteRing max d id fn).2) := by
    rw [deleteRing, if_neg hid.not_ge, if_neg hs]
  have hnull : ∀ t' : Tables, (t'.ctx d id) = .zero → t'.syncFwIdx d id = t' := by
    intro t' h
    rw [syncFwIdx, h]
    rfl
  have hzero : (t.deleteRing max d id fn).2.ctx d id = .zero := by
    rw [deleteRing, if_neg hid.not_ge, if_neg hs]
    exact upd_self _ _ _ _
  rw [deleteDirRing, hdel, if_pos rfl]
  refine congrArg _ (hnull _ ?_)
  cases host with
  | none => exact hzero
  | some v =>
    rw [Option.map_some, Option.getD_some, setHostIdx_ctx]
    exact hzero

/-- What it leaves. -/
structure Wiped (d : RingDir) (id : ℕ) (fn : RingUser) (host : Option ℕ) (t t' : Tables) : Prop where
  ctx : t'.ctx = upd t.ctx d id .zero
  live : t'.live = t.live.erase (t.ctx d id).pRingBase
  released : t'.released = t.released ++ [(t.ctx d id).pRingBase]
  cleared : t'.cleared = t.cleared ++ t.clearElems d id fn (t.ctx d id)
  fwIdx : t'.fwIdx id d = t.fwIdx id d
  hostIdx : t'.hostIdx id d = host.getD (t.hostIdx id d)

theorem wiped {host : Option ℕ} (hid : id < max) (hs : (t.ctx d id).ringState ≠ .invalid) :
    Wiped d id fn host t (t.deleteDirRing max d id fn host).2 := by
  have hdel : Wiped d id fn none t (t.deleteRing max d id fn).2 := by
    rw [deleteRing, if_neg hid.not_ge, if_neg hs]
    exact ⟨rfl, rfl, rfl, rfl, by cases d <;> rfl, by cases d <;> rfl⟩
  rw [deleteDirRing_eq hid hs]
  cases host with
  | none => exact hdel
  | some v =>
    exact ⟨by simp [hdel.ctx], by simp [hdel.live], by simp [hdel.released], by simp [hdel.cleared],
      by simp [hdel.fwIdx], by simp⟩

/-- One that finds none: only the host has moved. -/
theorem deleteDirRing_false {host : Option ℕ} (h : (t.deleteDirRing max d id fn host).1 = false) :
    (t.deleteDirRing max d id fn host).2 = (host.map (t.setHostIdx d id)).getD t := by
  rw [deleteDirRing] at h ⊢
  cases hd : (t.deleteRing max d id fn).1 with
  | true =>
    rw [hd, if_pos rfl] at h
    exact Bool.noConfusion h
  | false =>
    have hsame : (t.deleteRing max d id fn).2 = t := by
      rw [deleteRing] at hd ⊢
      split at hd
      · rw [if_pos ‹_›]
      · rw [if_neg ‹_›]
        split at hd
        · rw [if_pos ‹_›]
        · exact Bool.noConfusion hd
    rw [if_neg Bool.false_ne_true, hsame]

theorem deleteDirRing_true {host : Option ℕ} (h : (t.deleteDirRing max d id fn host).1 = true) :
    id < max ∧ (t.ctx d id).ringState ≠ .invalid := by
  by_contra hne
  have hd : (t.deleteRing max d id fn).1 = false := by
    rw [deleteRing]
    by_cases hid : max ≤ id
    · rw [if_pos hid]
    · by_cases hs : (t.ctx d id).ringState = .invalid
      · rw [if_neg hid, if_pos hs]
      · exact absurd ⟨not_le.mp hid, hs⟩ hne
  rw [deleteDirRing, hd, if_neg Bool.false_ne_true] at h
  exact Bool.noConfusion h

/-- The loop over the elements. -/
theorem clearElems_eq (t : Tables) (d : RingDir) (id : ℕ) (fn : RingUser) (e : CtxEntry) :
    t.clearElems d id fn e =
      ((List.range e.ringNumElem).filter fun i => decide ((t.elem e.pRingBase i).pBuf ≠ 0)).map
        fun i => ⟨d, id, i, e.pfnPost2thread, fn⟩ := by
  rw [clearElems]
  induction e.ringNumElem with
  | zero => rfl
  | succ k ih =>
    rw [List.range_succ, List.foldl_append, ih, List.filter_append, List.map_append]
    by_cases hk : (t.elem e.pRingBase k).pBuf ≠ 0
    · simp [hk]
    · simp [not_not.mp hk]

/-! ### Blocks -/

/-- Each ring in use has a block of its own, which is allocated, and points to its own index bytes. -/
structure WF (t : Tables) : Prop where
  nodup : t.live.Nodup
  block : ∀ d id, (t.ctx d id).ringState = .inUse → (t.ctx d id).pRingBase ∈ t.live
  apart : ∀ d id d' id', (t.ctx d id).ringState = .inUse → (t.ctx d' id').ringState = .inUse →
    (t.ctx d id).pRingBase = (t.ctx d' id').pRingBase → d = d' ∧ id = id'

theorem wf_boot : WF boot :=
  ⟨List.nodup_nil, fun _ _ h => RingState.noConfusion h, fun _ _ _ _ h _ _ => RingState.noConfusion h⟩

namespace WF

/-- What does not touch the contexts and the heap. -/
theorem congr {t' : Tables} (h : WF t) (hctx : t'.ctx = t.ctx) (hlive : t'.live = t.live) : WF t' := by
  refine ⟨hlive ▸ h.nodup, fun d id hs => ?_, fun d id d' id' hs hs' he => ?_⟩
  · rw [hctx] at hs ⊢
    rw [hlive]
    exact h.block d id hs
  · rw [hctx] at hs hs' he
    exact h.apart d id d' id' hs hs' he

/-- An entry is zeroed, and its block released if it had one. -/
theorem wipe (h : WF t) (d : RingDir) (id : ℕ) {live : List ℕ} (hnodup : live.Nodup)
    (hlive : ∀ d' id', ¬ (d' = d ∧ id' = id) → (t.ctx d' id').ringState = .inUse →
      (t.ctx d' id').pRingBase ∈ live) {t' : Tables} (hctx : t'.ctx = upd t.ctx d id .zero) (ht' : t'.live = live) :
    WF t' := by
  have hne : ∀ d' id', (upd t.ctx d id .zero d' id').ringState = .inUse → ¬ (d' = d ∧ id' = id) := by
    rintro d' id' hs ⟨rfl, rfl⟩
    rw [upd_self] at hs
    exact RingState.noConfusion hs
  subst ht'
  refine ⟨hnodup, fun d' id' hs => ?_, fun d' id' d'' id'' hs hs' he => ?_⟩
  · rw [hctx] at hs ⊢
    have hd := hne d' id' hs
    rw [upd_of_ne hd] at hs ⊢
    exact hlive d' id' hd hs
  · rw [hctx] at hs hs' he
    have hd := hne d' id' hs
    have hd' := hne d'' id'' hs'
    rw [upd_of_ne hd] at hs he
    rw [upd_of_ne hd'] at hs' he
    exact h.apart d' id' d'' id'' hs hs' he

/-- An entry that is free gets a new block. -/
theorem add (h : WF t) (d : RingDir) (id : ℕ) (e : CtxEntry) (hnew : e.pRingBase ∉ t.live) {t' : Tables}
    (hctx : t'.ctx = upd t.ctx d id e) (hlive : t'.live = e.pRingBase :: t.live) : WF t' := by
  have hold : ∀ d' id', ¬ (d' = d ∧ id' = id) → (t'.ctx d' id') = t.ctx d' id' := by
    intro d' id' hd
    rw [hctx, upd_of_ne hd]
  have hself : t'.ctx d id = e := by rw [hctx, upd_self]
  refine ⟨hlive ▸ List.nodup_cons.mpr ⟨hnew, h.nodup⟩, fun d' id' hs => ?_, fun d' id' d'' id'' hs hs' he => ?_⟩
  · rw [hlive]
    by_cases hd : d' = d ∧ id' = id
    · obtain ⟨rfl, rfl⟩ := hd
      rw [hself]
      exact List.mem_cons_self
    · rw [hold _ _ hd] at hs ⊢
      exact List.mem_cons_of_mem _ (h.block d' id' hs)
  · by_cases hd : d' = d ∧ id' = id <;> by_cases hd' : d'' = d ∧ id'' = id
    · exact ⟨hd.1.trans hd'.1.symm, hd.2.trans hd'.2.symm⟩
    · obtain ⟨rfl, rfl⟩ := hd
      rw [hold _ _ hd'] at hs' he
      rw [hself] at he
      exact absurd (he ▸ h.block d'' id'' hs') hnew
    · obtain ⟨rfl, rfl⟩ := hd'
      rw [hold _ _ hd] at hs he
      rw [hself] at he
      exact absurd (he.symm ▸ h.block d' id' hs) hnew
    · rw [hold _ _ hd] at hs he
      rw [hold _ _ hd'] at hs' he
      exact h.apart d' id' d'' id'' hs hs' he

theorem create (h : WF t) (ha : alloc = 0 ∨ alloc ∉ t.live) : WF (t.createRing max d post size n alloc).2 := by
  cases hr : (t.createRing max d post size n alloc).1 with
  | some id =>
    obtain ⟨-, -, hne, heq⟩ := createRing_eq hr
    exact h.add d id _ (ha.resolve_left hne) (by rw [heq]) (by rw [heq])
  | none =>
    rcases createRing_none hr with heq | ⟨id, hs, heq⟩
    · exact heq.symm ▸ h
    · exact h.wipe d id h.nodup (fun d' id' _ hs' => h.block d' id' hs') (by rw [heq]) (by rw [heq])

theorem setHostIdx (h : WF t) (d : RingDir) (id v : ℕ) : WF (t.setHostIdx d id v) := h.congr (by simp) (by simp)

theorem host (h : WF t) (d : RingDir) (id : ℕ) (v : Option ℕ) : WF ((v.map (t.setHostIdx d id)).getD t) := by
  cases v with
  | none => exact h
  | some v => exact h.setHostIdx d id v

theorem deleteRing (h : WF t) : WF (t.deleteRing max d id fn).2 := by
  rw [Tables.deleteRing]
  split
  · exact h
  · split
    · exact h
    · rename_i hs
      refine h.wipe d id (h.nodup.erase _) (fun d' id' hd hs' => ?_) rfl rfl
      refine (List.mem_erase_of_ne fun he => hd ?_).mpr (h.block d' id' hs')
      exact h.apart d' id' d id hs' (inUse_of_ne_invalid hs) he

theorem delete (h : WF t) (v : Option ℕ) : WF (t.deleteDirRing max d id fn v).2 := by
  cases hr : (t.deleteDirRing max d id fn v).1 with
  | true =>
    obtain ⟨hid, hs⟩ := deleteDirRing_true hr
    rw [deleteDirRing_eq hid hs]
    exact h.deleteRing.host d id v
  | false =>
    rw [deleteDirRing_false hr]
    exact h.host d id v

theorem act {a : TableAct} (h : WF t) (ha : t.Alloc a) : WF (t.act max a) := by
  cases a with
  | create d post size n alloc => exact h.create ha
  | delete d id fn host => exact h.delete host
  | host d id v => exact h.setHostIdx d id v
  | fw d id v => exact h.congr (by simp [Tables.act]) (by simp [Tables.act])
  | elems d id f => exact h.congr rfl rfl

/-- A deletion does all it is to do but the synchronisation, which holds if the indices agree. -/
theorem deleted_iff (h : WF t) (v : Option ℕ) (hr : (t.deleteDirRing max d id fn v).1 = true) :
    Deleted d id t (t.deleteDirRing max d id fn v).2 ↔ t.fwIdx id d = v.getD (t.hostIdx id d) := by
  obtain ⟨hid, hs⟩ := deleteDirRing_true hr
  have hw : Wiped d id fn v t (t.deleteDirRing max d id fn v).2 := wiped hid hs
  constructor
  · intro hd
    rw [← hw.fwIdx, ← hw.hostIdx]
    exact hd.synced
  · intro hagree
    refine ⟨by rw [hw.fwIdx, hw.hostIdx, hagree], by rw [hw.ctx, upd_self]; rfl, ?_, hw.released, ?_⟩
    · rw [hw.live]
      exact ⟨h.block d id (inUse_of_ne_invalid hs), h.nodup.not_mem_erase⟩
    · refine ⟨t.clearElems d id fn (t.ctx d id), hw.cleared, ?_, ?_, fun i => ?_⟩
      · intro x hx
        rw [clearElems_eq] at hx
        obtain ⟨i, -, rfl⟩ := List.mem_map.mp hx
        exact ⟨rfl, rfl⟩
      · rw [clearElems_eq, List.map_map]
        exact List.nodup_range.filter _ |>.map fun _ _ he => he
      · rw [clearElems_eq, List.map_map]
        simp [List.mem_filter]

end WF

/-! ### Runs -/

/-- Along every run of creations and deletions, with whatever the host and the firmware do to indices and elements in
    between: each creation makes an empty ring, and each deletion does what it is to do, exactly if every ring is
    deleted with its indices in agreement. -/
theorem right_iff (maxNumRings : ℕ) {as : List TableAct} (ha : Along (act maxNumRings) Alloc boot as) :
    Along (act maxNumRings) (Right maxNumRings) boot as ↔ Along (act maxNumRings) (Agree maxNumRings) boot as := by
  refine Along.iff (I := WF) (fun t a h hl _ => h.act hl) (fun t a h _ => ?_) wf_boot ha
  cases a with
  | create d post size n alloc => exact iff_of_true (fun id hid => created hid) trivial
  | delete d id fn host =>
    rw [Right, Agree]
    constructor
    · intro hright hid hs
      have htrue : (t.deleteDirRing maxNumRings d id fn host).1 = true := by
        rw [deleteDirRing_eq hid (by rw [hs]; exact RingState.noConfusion)]
      exact (h.deleted_iff host htrue).mp (hright htrue)
    · intro hagree htrue
      obtain ⟨hid, hs⟩ := deleteDirRing_true htrue
      exact (h.deleted_iff host htrue).mpr (hagree hid (inUse_of_ne_invalid hs))
  | host d id v => exact Iff.rfl
  | fw d id v => exact Iff.rfl
  | elems d id f => exact Iff.rfl

/-- The host writes three packets, the firmware takes them, and the ring is deleted. -/
theorem right_of_emptied :
    Along (act 2) (Right 2) boot
      [.create .a2f .hfc 16 20 256, .host .a2f 0 3, .fw .a2f 0 3, .delete .a2f 0 .hfc none] := by
  have halloc : Along (act 2) Alloc boot
      [.create .a2f .hfc 16 20 256, .host .a2f 0 3, .fw .a2f 0 3, .delete .a2f 0 .hfc none] :=
    ⟨.inr (by decide), trivial, trivial, trivial, trivial⟩
  exact (right_iff 2 halloc).mpr ⟨trivial, trivial, trivial, fun _ _ => by decide, trivial⟩

/-- A ring is deleted with three packets in it: the read index stays behind. -/
theorem deleted_not_synced :
    ¬ ∀ (maxNumRings : ℕ) (as : List TableAct), Along (act maxNumRings) Alloc boot as →
      Along (act maxNumRings) (Right maxNumRings) boot as := by
  intro h
  have hright := h 2 [.create .a2f .hfc 16 20 256, .host .a2f 0 3, .delete .a2f 0 .hfc none]
    ⟨.inr (by decide), trivial, trivial, trivial⟩
  have hsync := (hright.2.2.1 (by decide)).synced
  exact absurd hsync (by decide)

end Tables

end Qcc730.Ring
