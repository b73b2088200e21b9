import Qcc730.Ring.A2f
import Qcc730.Ring.Tables

/-! The data rings.

    All UDP users of a direction share one ring, and so do all users of raw Ethernet; a TCP user has a ring of its
    own. A shared ring is made for its first user and deleted for its last one. Which functions supply and free
    the buffers of a ring is found out from its id, by comparison with the ids of the shared rings. -/

namespace Qcc730.Ring
open Lib

/-- The types of data whose users share a ring. -/
inductive SharedRing where
  | udp
  | raweth
  deriving DecidableEq, Repr

def SharedRing.type : SharedRing → DataRing
  | .udp => .udp
  | .raweth => .raweth

/-- `sizeof(ring_element_t)` -/
def sizeofRingElement : ℕ := 12

/-- `MAX_NUM_A2F_DATA_RING_ELEMS` and `MAX_NUM_F2A_DATA_RING_ELEMS` -/
def maxNumDataRingElems : RingDir → ℕ
  | .a2f => 20
  | .f2a => 32

/-- The tables and the globals of the data rings. -/
structure DataRings where
  tables : Tables
  /-- `g_a2f_udp_ring_id`, `g_f2a_udp_ring_id`, `g_a2f_raweth_ring_id`, `g_f2a_raweth_ring_id` -/
  ringId : RingDir → SharedRing → ℕ
  /-- `g_num_a2f_udp_rings` and the three others -/
  numRings : RingDir → SharedRing → ℕ
  /-- every buffer that was supplied by a refill function or freed by an update of a ring, in order -/
  handled : List Handled
  /-- an assertion has failed -/
  halted : Bool
  /-- how many creations of each shared ring are outstanding -/
  users : RingDir → SharedRing → ℕ

namespace DataRings

/-- `g_…_ring_id` or `g_num_…_rings`, set. -/
def upd {α : Type*} (f : RingDir → SharedRing → α) (d : RingDir) (x : SharedRing) (v : α) : RingDir → SharedRing → α :=
  fun d' x' => if d' = d ∧ x' = x then v else f d' x'

/-- Before any data ring is made. -/
def init (maxNumRings : ℕ) (t : Tables) : DataRings :=
  ⟨t, fun _ _ => maxNumRings, fun _ _ => 0, [], false, fun _ _ => 0⟩

/-- `ringif_get_data_refill_fn` -/
def getDataRefillFn (s : DataRings) (ringId : ℕ) : RingUser :=
  if ringId = s.ringId .a2f .raweth then .data .raweth
  else if ringId = s.ringId .a2f .udp then .data .udp
  else .data .tcp

/-- `ringif_get_data_clear_fn` -/
def getDataClearFn (s : DataRings) (ringId : ℕ) : RingUser :=
  if ringId = s.ringId .f2a .raweth then .data .raweth
  else if ringId = s.ringId .f2a .udp then .data .udp
  else .data .tcp

/-- The elements of the ring `id` that are in `L`, as the function `fn` gets them. -/
def handle (s : DataRings) (d : RingDir) (id : ℕ) (fn : RingUser) (L : List ℕ) : List Handled :=
  L.map fun i => ⟨d, id, i, (s.tables.ctx d id).pfnPost2thread, fn⟩

/-- `ringif_a2f_refill_bufs`; `pfnRefillElem` is what the function `fn` finds for each element. -/
def refillBufs (s : DataRings) (id : ℕ) (fn : RingUser) (pfnRefillElem : ℕ → Option Packet) : DataRings :=
  match s.tables.ring .a2f id with
  | none => s
  | some c =>
    let elem := (c.a2fRefillBufs pfnRefillElem).2.elem
    { s with
      tables := { s.tables with
        elem := Function.update s.tables.elem (s.tables.ctx .a2f id).pRingBase elem }
      handled := s.handled ++ s.handle .a2f id fn
        ((List.range c.ringNumElem).filter fun i => decide ((c.elem i).pBuf = 0 ∧ (elem i).pBuf ≠ 0)) }

/-- `create_a2f_default_udp_ring` and the three others: the id goes into the global, INVALID_RING_ID too, and an A2F
    ring gets its buffers. -/
def createDefaultRing (s : DataRings) (maxNumRings : ℕ) (d : RingDir) (x : SharedRing) (alloc : ℕ)
    (pfnRefillElem : ℕ → Option Packet) : DataRings :=
  let r := s.tables.createRing maxNumRings d (.data x.type) sizeofRingElement (maxNumDataRingElems d) alloc
  match r.1 with
  | none => { s with tables := r.2, ringId := upd s.ringId d x 0xFF, halted := true }
  | some id =>
    let s' := { s with tables := r.2, ringId := upd s.ringId d x id }
    match d with
    | .a2f => s'.refillBufs id (s'.getDataRefillFn id) pfnRefillElem
    | .f2a => s'

/-- `ringif_create_a2f_udp_ring` and the three others: `none` is FALSE. -/
def createSharedRing (s : DataRings) (maxNumRings : ℕ) (d : RingDir) (x : SharedRing) (alloc : ℕ)
    (pfnRefillElem : ℕ → Option Packet) : Option ℕ × DataRings :=
  let s' :=
    if s.ringId d x = maxNumRings then s.createDefaultRing maxNumRings d x alloc pfnRefillElem else s
  if s'.halted then (none, s')
  else if s'.ringId d x < maxNumRings then
    (some (s'.ringId d x),
      { s' with
        numRings := upd s'.numRings d x ((s'.numRings d x + 1) % 256)
        users := upd s'.users d x (s'.users d x + 1) })
  else (none, s')

/-- `ringif_create_a2f_tcp_ring` and `ringif_create_f2a_tcp_ring`. -/
def createTcpRing (s : DataRings) (maxNumRings : ℕ) (d : RingDir) (alloc : ℕ)
    (pfnRefillElem : ℕ → Option Packet) : Option ℕ × DataRings :=
  let r := s.tables.createRing maxNumRings d (.data .tcp) sizeofRingElement (maxNumDataRingElems d) alloc
  let s' := { s with tables := r.2 }
  match r.1 with
  | none => (none, s')
  | some id =>
    match d with
    | .a2f => (some id, s'.refillBufs id (s'.getDataRefillFn id) pfnRefillElem)
    | .f2a => (some id, s')

/-- `ringif_delete_a2f_data_ring` and `ringif_delete_f2a_data_ring`: they do not look at the type. -/
def deleteDataRing (s : DataRings) (maxNumRings : ℕ) (d : RingDir) (id : ℕ) (host : Option ℕ) : Bool × DataRings :=
  let r := s.tables.deleteDirRing maxNumRings d id (s.getDataClearFn id) host
  (r.1, { s with tables := r.2 })

/-- `ringif_delete_a2f_udp_ring` and the three others. -/
def deleteSharedRing (s : DataRings) (maxNumRings : ℕ) (d : RingDir) (x : SharedRing) (id : ℕ)
    (host : Option ℕ) : Bool × DataRings :=
  let users := upd s.users d x (s.users d x - 1)
  if s.numRings d x ≠ 0 then
    let s' := { s with numRings := upd s.numRings d x (s.numRings d x - 1), users := users }
    if s'.numRings d x = 0 then
      let r := s'.deleteDataRing maxNumRings d id host
      (r.1, { r.2 with ringId := upd r.2.ringId d x maxNumRings })
    else (true, s')
  else (true, { s with users := users })

/-- `ringif_delete_a2f_tcp_ring` and `ringif_delete_f2a_tcp_ring`. -/
def deleteTcpRing (s : DataRings) (maxNumRings : ℕ) (d : RingDir) (id : ℕ) (host : Option ℕ) : Bool × DataRings :=
  s.deleteDataRing maxNumRings d id host

/-- `handle_a2f_data_ring_update` and `handle_f2a_data_ring_update`: the elements in `L` are refilled or cleared. -/
def handleDataRingUpdate (s : DataRings) (d : RingDir) (id : ℕ) (L : List ℕ) : DataRings :=
  match d with
  | .a2f => { s with handled := s.handled ++ s.handle .a2f id (s.getDataRefillFn id) L }
  | .f2a => { s with handled := s.handled ++ s.handle .f2a id (s.getDataClearFn id) L }

end DataRings

inductive DataRingAct where
  | create (d : RingDir) (x : SharedRing) (alloc : ℕ) (pfnRefillElem : ℕ → Option Packet)
  | createTcp (d : RingDir) (alloc : ℕ) (pfnRefillElem : ℕ → Option Packet)
  | delete (d : RingDir) (x : SharedRing) (id : ℕ) (host : Option ℕ)
  | deleteTcp (d : RingDir) (id : ℕ) (host : Option ℕ)
  /-- the thread of a ring handles an update of it -/
  | update (d : RingDir) (id : ℕ) (L : List ℕ)
  /-- the host writes its index -/
  | host (d : RingDir) (id v : ℕ)
  /-- the firmware writes its index -/
  | fw (d : RingDir) (id v : ℕ)
  /-- the elements of a ring change -/
  | elems (d : RingDir) (id : ℕ) (f : ℕ → Element)

namespace DataRings

/-- After a failed assertion nothing happens any more. -/
def act (max : ℕ) (s : DataRings) (a : DataRingAct) : DataRings :=
  if s.halted then s
  else
    match a with
    | .create d x alloc f => (s.createSharedRing max d x alloc f).2
    | .createTcp d alloc f => (s.createTcpRing max d alloc f).2
    | .delete d x id host => (s.deleteSharedRing max d x id host).2
    | .deleteTcp d id host => (s.deleteTcpRing max d id host).2
    | .update d id L => s.handleDataRingUpdate d id L
    | .host d id v => { s with tables := s.tables.act max (.host d id v) }
    | .fw d id v => { s with tables := s.tables.act max (.fw d id v) }
    | .elems d id f => { s with tables := s.tables.act max (.elems d id f) }

/-- The ring `id` is in use for data of this type. -/
structure InUse (s : DataRings) (max : ℕ) (d : RingDir) (id : ℕ) (type : DataRing) : Prop where
  lt : id < max
  state : (s.tables.ctx d id).ringState = .inUse
  post : (s.tables.ctx d id).pfnPost2thread = some (.data type)

/-- What the callers and the allocator see to: a block that is allocated is a new one; at most 255 creations of a shared
    ring are outstanding; whoever deletes a ring passes the id that was returned for it; and updates are handled of
    rings in use. -/
def Proper (max : ℕ) (s : DataRings) : DataRingAct → Prop
  | .create d x alloc _ => (alloc = 0 ∨ alloc ∉ s.tables.live) ∧ s.users d x < 255
  | .createTcp _ alloc _ => alloc = 0 ∨ alloc ∉ s.tables.live
  | .delete d x id _ => s.users d x ≠ 0 → s.ringId d x = id
  | .deleteTcp d id _ => s.InUse max d id .tcp
  | .update d id _ => ∃ type, s.InUse max d id type
  | _ => True

/-! ### What the calls are to do -/

/-- Every buffer was handled by the functions of the type of its ring. -/
def Typed (s : DataRings) : Prop := ∀ h ∈ s.handled ++ s.tables.cleared, h.owner = some h.fn

/-- A call does what it is to do: a creation returns a ring in use for its type, the one its type shares if it has a
    user already and else a new one; a deletion deletes the ring if it was the last user's and leaves it alone
    otherwise; and every buffer is handled by the functions of the type of its ring. -/
def Right (max : ℕ) (s : DataRings) (a : DataRingAct) : Prop :=
  s.halted = true ∨ (s.act max a).Typed ∧
    match a with
    | .create d x alloc f =>
      (s.act max a).halted = true ∨
        ∃ id, (s.createSharedRing max d x alloc f).1 = some id ∧ (s.act max a).InUse max d id x.type ∧
          if s.users d x = 0 then (s.tables.ctx d id).ringState = .invalid
          else (s.act max a).tables = s.tables ∧ s.ringId d x = id
    | .createTcp d alloc f =>
      ∀ id, (s.createTcpRing max d alloc f).1 = some id →
        (s.act max a).InUse max d id .tcp ∧ (s.tables.ctx d id).ringState = .invalid
    | .delete d x id host =>
      (s.deleteSharedRing max d x id host).1 = true ∧
        if s.users d x = 1 then ((s.act max a).tables.ctx d id).ringState = .invalid
        else (s.act max a).tables = s.tables
    | .deleteTcp d id host =>
      (s.deleteTcpRing max d id host).1 = true ∧ ((s.act max a).tables.ctx d id).ringState = .invalid
    | _ => True

/-- No element of the ring has a buffer. -/
def NoBuffers (s : DataRings) (d : RingDir) (id : ℕ) : Prop :=
  ∀ i < (s.tables.ctx d id).ringNumElem, (s.tables.elem (s.tables.ctx d id).pRingBase i).pBuf = 0

/-- An A2F ring that is deleted has no buffers, or its id, compared with those of the F2A rings, gives its own type. -/
def Matched (s : DataRings) : DataRingAct → Prop
  | .delete .a2f x id _ =>
    s.halted = true ∨ s.users .a2f x ≠ 1 ∨ s.NoBuffers .a2f id ∨ s.getDataClearFn id = .data x.type
  | .deleteTcp .a2f id _ => s.halted = true ∨ s.NoBuffers .a2f id ∨ s.getDataClearFn id = .data .tcp
  | _ => True

/-! ### Under the source's names -/

section Names

variable (s : DataRings) (max alloc id : ℕ) (pfnRefillElem : ℕ → Option Packet) (host : Option ℕ)

def createA2fUdpRing := s.createSharedRing max .a2f .udp alloc pfnRefillElem
def createF2aUdpRing := s.createSharedRing max .f2a .udp alloc pfnRefillElem
def createA2fRawethRing := s.createSharedRing max .a2f .raweth alloc pfnRefillElem
def createF2aRawethRing := s.createSharedRing max .f2a .raweth alloc pfnRefillElem
def createA2fTcpRing := s.createTcpRing max .a2f alloc pfnRefillElem
def createF2aTcpRing := s.createTcpRing max .f2a alloc pfnRefillElem
def deleteA2fUdpRing := s.deleteSharedRing max .a2f .udp id host
def deleteF2aUdpRing := s.deleteSharedRing max .f2a .udp id host
def deleteA2fRawethRing := s.deleteSharedRing max .a2f .raweth id host
def deleteF2aRawethRing := s.deleteSharedRing max .f2a .raweth id host
def deleteA2fTcpRing := s.deleteTcpRing max .a2f id host
def deleteF2aTcpRing := s.deleteTcpRing max .f2a id host

end Names

/-! ### The ids of the shared rings -/

variable {max id alloc : ℕ} {s s' : DataRings} {d : RingDir} {x : SharedRing} {type : DataRing}
  {f : ℕ → Option Packet} {host : Option ℕ}

/-- A global is the id of the one ring of its type, or MAX_NUM_A2F_RINGS if there is none. -/
structure Ids (max : ℕ) (s : DataRings) : Prop where
  only : ∀ d x id, s.InUse max d id x.type → s.ringId d x = id
  shared : ∀ d x, s.ringId d x = max ∨ s.InUse max d (s.ringId d x) x.type

theorem InUse.of_entry (h : s.InUse max d id type) (he : s'.tables.ctx d id = s.tables.ctx d id) :
    s'.InUse max d id type :=
  ⟨h.lt, he ▸ h.state, he ▸ h.post⟩

theorem inUse_iff_of_entry (he : s'.tables.ctx d id = s.tables.ctx d id) :
    s'.InUse max d id type ↔ s.InUse max d id type :=
  ⟨fun h => h.of_entry he.symm, fun h => h.of_entry he⟩

theorem InUse.congr (h : s.InUse max d id type) (hctx : s'.tables.ctx = s.tables.ctx) : s'.InUse max d id type :=
  h.of_entry (by rw [hctx])

/-- A ring has one type. -/
theorem InUse.type_eq {type' : DataRing} (h : s.InUse max d id type) (h' : s.InUse max d id type') : type = type' := by
  have hpost := h.post.symm.trans h'.post
  exact RingUser.data.inj (Option.some.inj hpost)

theorem SharedRing.type_inj {x y : SharedRing} (h : x.type = y.type) : x = y := by
  cases x <;> cases y <;> first | rfl | exact DataRing.noConfusion h

namespace Ids

theorem congr (h : s.Ids max) (hctx : s'.tables.ctx = s.tables.ctx) (hid : s'.ringId = s.ringId) : s'.Ids max := by
  refine ⟨fun d x id hin => ?_, fun d x => ?_⟩
  · rw [hid]
    exact h.only d x id (hin.congr hctx.symm)
  · rw [hid]
    exact (h.shared d x).imp_right fun hin => hin.congr hctx

/-- A ring of another type has another id. -/
theorem ne (h : s.Ids max) (hin : s.InUse max d id type) (hx : x.type ≠ type) : id ≠ s.ringId d x := by
  rintro rfl
  rcases h.shared d x with hmax | hsh
  · exact absurd hmax hin.lt.ne
  · exact hx (hsh.type_eq hin)

/-- The refill functions are those of the type of the ring. -/
theorem refillFn (h : s.Ids max) (hin : s.InUse max .a2f id type) : s.getDataRefillFn id = .data type := by
  rw [getDataRefillFn]
  cases type with
  | raweth => rw [if_pos (h.only .a2f .raweth id hin).symm]
  | udp =>
    rw [if_neg (h.ne (x := .raweth) hin DataRing.noConfusion), if_pos (h.only .a2f .udp id hin).symm]
  | tcp =>
    rw [if_neg (h.ne (x := .raweth) hin DataRing.noConfusion), if_neg (h.ne (x := .udp) hin DataRing.noConfusion)]

/-- So are the clear functions of an F2A ring. -/
theorem clearFn (h : s.Ids max) (hin : s.InUse max .f2a id type) : s.getDataClearFn id = .data type := by
  rw [getDataClearFn]
  cases type with
  | raweth => rw [if_pos (h.only .f2a .raweth id hin).symm]
  | udp =>
    rw [if_neg (h.ne (x := .raweth) hin DataRing.noConfusion), if_pos (h.only .f2a .udp id hin).symm]
  | tcp =>
    rw [if_neg (h.ne (x := .raweth) hin DataRing.noConfusion), if_neg (h.ne (x := .udp) hin DataRing.noConfusion)]

end Ids

/-! ### Buffers -/

theorem Typed.handle (h : s.Typed) (hh : s'.handled = s.handled ++ s.handle d id (.data type) L)
    (hc : s'.tables.cleared = s.tables.cleared) (hin : s.InUse max d id type) : s'.Typed := by
  intro y hy
  rw [hh, hc, List.append_assoc, List.mem_append, List.mem_append] at hy
  rcases hy with hy | hy | hy
  · exact h y (List.mem_append_left _ hy)
  · obtain ⟨i, -, rfl⟩ := List.mem_map.mp hy
    exact hin.post
  · exact h y (List.mem_append_right _ hy)

theorem Typed.congr (h : s.Typed) (hh : s'.handled = s.handled) (hc : s'.tables.cleared = s.tables.cleared) :
    s'.Typed := by
  rw [Typed, hh, hc]
  exact h

/-- The refill changes elements, and records the buffers. -/
theorem refillBufs_eq (s : DataRings) (id : ℕ) (fn : RingUser) (f : ℕ → Option Packet) :
    ∃ elem L, s.refillBufs id fn f =
      { s with
        tables := { s.tables with elem := elem }
        handled := s.handled ++ s.handle .a2f id fn L } := by
  cases hr : s.tables.ring .a2f id with
  | none => exact ⟨s.tables.elem, [], by simp [refillBufs, hr, handle]⟩
  | some c =>
    simp only [refillBufs, hr]
    exact ⟨_, _, rfl⟩

/-- The types fit and the ids are in order. -/
structure Sound (max : ℕ) (s : DataRings) : Prop where
  wf : s.tables.WF
  typed : s.Typed
  ids : s.Ids max

/-- A ring gets its first buffers. -/
theorem Sound.refill (h : s.Sound max) (hin : s.InUse max .a2f id type) (f : ℕ → Option Packet) :
    (s.refillBufs id (s.getDataRefillFn id) f).Sound max ∧
      (s.refillBufs id (s.getDataRefillFn id) f).tables.ctx = s.tables.ctx := by
  obtain ⟨elem, L, heq⟩ := s.refillBufs_eq id (s.getDataRefillFn id) f
  rw [heq, h.ids.refillFn hin]
  exact ⟨⟨h.wf.congr rfl rfl, h.typed.handle rfl rfl hin, h.ids.congr rfl rfl⟩, rfl⟩

theorem refillBufs_other (s : DataRings) (id : ℕ) (fn : RingUser) (f : ℕ → Option Packet) :
    (s.refillBufs id fn f).ringId = s.ringId ∧ (s.refillBufs id fn f).numRings = s.numRings ∧
      (s.refillBufs id fn f).users = s.users ∧ (s.refillBufs id fn f).halted = s.halted := by
  obtain ⟨elem, L, heq⟩ := s.refillBufs_eq id fn f
  rw [heq]
  exact ⟨rfl, rfl, rfl, rfl⟩

/-! ### Creations -/

section Creation

variable {post : RingUser} {size n : ℕ}

/-- Which rings are in use after a creation. -/
theorem inUse_createRing (hr : (s.tables.createRing max d (.data type) size n alloc).1 = some id)
    (hs' : s'.tables = (s.tables.createRing max d (.data type) size n alloc).2) {d' : RingDir} {i : ℕ}
    {type' : DataRing} :
    s'.InUse max d' i type' ↔ (d' = d ∧ i = id ∧ type' = type) ∨ (¬ (d' = d ∧ i = id) ∧ s.InUse max d' i type') := by
  obtain ⟨hlt, -, -, heq⟩ := Tables.createRing_eq hr
  obtain ⟨e, hctx, hstate, hpost⟩ : ∃ e, s'.tables.ctx = Tables.upd s.tables.ctx d id e ∧ e.ringState = .inUse ∧
      e.pfnPost2thread = some (.data type) := ⟨_, by rw [hs', heq], rfl, rfl⟩
  by_cases hd : d' = d ∧ i = id
  · obtain ⟨rfl, rfl⟩ := hd
    constructor
    · intro hin
      have hin' := hin.post
      rw [hctx, Tables.upd_self, hpost] at hin'
      exact .inl ⟨rfl, rfl, (RingUser.data.inj (Option.some.inj hin')).symm⟩
    · rintro (⟨-, -, rfl⟩ | ⟨hne, -⟩)
      · exact ⟨hlt, by rw [hctx, Tables.upd_self, hstate], by rw [hctx, Tables.upd_self, hpost]⟩
      · exact absurd ⟨rfl, rfl⟩ hne
  · have hsame : s'.InUse max d' i type' ↔ s.InUse max d' i type' :=
      inUse_iff_of_entry (by rw [hctx, Tables.upd_of_ne hd])
    rw [hsame]
    constructor
    · exact fun hin => .inr ⟨hd, hin⟩
    · rintro (⟨hd', hi, -⟩ | ⟨-, hin⟩)
      · exact absurd ⟨hd', hi⟩ hd
      · exact hin

theorem createRing_cleared (t : Tables) (max : ℕ) (d : RingDir) (post : RingUser) (size n alloc : ℕ) :
    (t.createRing max d post size n alloc).2.cleared = t.cleared := by
  rw [Tables.createRing]
  split
  · rfl
  · split <;> rfl

/-- A ring that was free is in no global. -/
theorem Ids.ne_of_invalid (h : s.Ids max) (hlt : id < max) (hs : (s.tables.ctx d id).ringState = .invalid)
    (x : SharedRing) : s.ringId d x ≠ id := by
  rintro rfl
  rcases h.shared d x with hmax | hin
  · omega
  · exact absurd (hin.state.symm.trans hs) RingState.noConfusion

/-- A new ring for TCP. -/
theorem Sound.addTcp (h : s.Sound max) (ha : alloc = 0 ∨ alloc ∉ s.tables.live)
    (hr : (s.tables.createRing max d (.data .tcp) size n alloc).1 = some id) :
    { s with tables := (s.tables.createRing max d (.data .tcp) size n alloc).2 }.Sound max := by
  obtain ⟨hlt, hfree, -, -⟩ := Tables.createRing_eq hr
  refine ⟨h.wf.create ha, h.typed.congr rfl (createRing_cleared ..), fun d' y i hin => ?_, fun d' y => ?_⟩
  · rcases (inUse_createRing hr rfl).mp hin with ⟨-, -, hy⟩ | ⟨-, hin⟩
    · cases y <;> exact DataRing.noConfusion hy
    · exact h.ids.only d' y i hin
  · refine (h.ids.shared d' y).imp_right fun hin => (inUse_createRing hr rfl).mpr (.inr ⟨?_, hin⟩)
    rintro ⟨rfl, hi⟩
    exact h.ids.ne_of_invalid hlt hfree y hi

/-- A new ring for a type that has none. -/
theorem Sound.addShared (h : s.Sound max) (ha : alloc = 0 ∨ alloc ∉ s.tables.live) (hx : s.ringId d x = max)
    (hr : (s.tables.createRing max d (.data x.type) size n alloc).1 = some id) :
    { s with
      tables := (s.tables.createRing max d (.data x.type) size n alloc).2
      ringId := upd s.ringId d x id }.Sound max := by
  obtain ⟨hlt, hfree, -, -⟩ := Tables.createRing_eq hr
  refine ⟨h.wf.create ha, h.typed.congr rfl (createRing_cleared ..), fun d' y i hin => ?_, fun d' y => ?_⟩
  · dsimp only [upd]
    rcases (inUse_createRing hr rfl).mp hin with ⟨rfl, rfl, hy⟩ | ⟨-, hold⟩
    · rw [if_pos ⟨rfl, SharedRing.type_inj hy⟩]
    · rw [if_neg]
      · exact h.ids.only d' y i hold
      · rintro ⟨rfl, rfl⟩
        have hi := h.ids.only _ _ i hold
        have := hold.lt
        omega
  · dsimp only [upd]
    by_cases hdy : d' = d ∧ y = x
    · obtain ⟨rfl, rfl⟩ := hdy
      rw [if_pos ⟨rfl, rfl⟩]
      exact .inr ((inUse_createRing hr rfl).mpr (.inl ⟨rfl, rfl, rfl⟩))
    · rw [if_neg hdy]
      refine (h.ids.shared d' y).imp_right fun hin => (inUse_createRing hr rfl).mpr (.inr ⟨?_, hin⟩)
      rintro ⟨rfl, hi⟩
      exact h.ids.ne_of_invalid hlt hfree y hi

end Creation

/-- `createDefaultRing` with a ring. -/
theorem Sound.createDefault (h : s.Sound max) (ha : alloc = 0 ∨ alloc ∉ s.tables.live) (hx : s.ringId d x = max)
    (hr : (s.tables.createRing max d (.data x.type) sizeofRingElement (maxNumDataRingElems d) alloc).1 = some id) :
    (s.createDefaultRing max d x alloc f).Sound max ∧
      (s.createDefaultRing max d x alloc f).InUse max d id x.type ∧
      (s.createDefaultRing max d x alloc f).ringId = upd s.ringId d x id ∧
      (s.createDefaultRing max d x alloc f).numRings = s.numRings ∧
      (s.createDefaultRing max d x alloc f).users = s.users ∧
      (s.createDefaultRing max d x alloc f).halted = s.halted := by
  obtain ⟨s₁, hs⟩ : ∃ s₁, s₁ = { s with
      tables := (s.tables.createRing max d (.data x.type) sizeofRingElement (maxNumDataRingElems d) alloc).2
      ringId := upd s.ringId d x id } := ⟨_, rfl⟩
  have hadd : s₁.Sound max := hs ▸ h.addShared ha hx hr
  have hin : s₁.InUse max d id x.type := (inUse_createRing hr (by rw [hs])).mpr (.inl ⟨rfl, rfl, rfl⟩)
  cases d with
  | f2a =>
    have heq : s.createDefaultRing max .f2a x alloc f = s₁ := by
      rw [hs]
      simp only [createDefaultRing, hr]
    rw [heq]
    exact ⟨hadd, hin, by rw [hs], by rw [hs], by rw [hs], by rw [hs]⟩
  | a2f =>
    have heq : s.createDefaultRing max .a2f x alloc f = s₁.refillBufs id (s₁.getDataRefillFn id) f := by
      rw [hs]
      simp only [createDefaultRing, hr]
    obtain ⟨hsound, hctx⟩ := hadd.refill hin f
    obtain ⟨hid, hnum, husers, hhalted⟩ := s₁.refillBufs_other id (s₁.getDataRefillFn id) f
    rw [heq, hid, hnum, husers, hhalted]
    exact ⟨hsound, hin.congr hctx, by rw [hs], by rw [hs], by rw [hs], by rw [hs]⟩

/-- `createTcpRing` with a ring. -/
theorem Sound.createTcp (h : s.Sound max) (ha : alloc = 0 ∨ alloc ∉ s.tables.live)
    (hr : (s.tables.createRing max d (.data .tcp) sizeofRingElement (maxNumDataRingElems d) alloc).1 = some id) :
    (s.createTcpRing max d alloc f).1 = some id ∧ (s.createTcpRing max d alloc f).2.Sound max ∧
      (s.createTcpRing max d alloc f).2.InUse max d id .tcp ∧
      (s.createTcpRing max d alloc f).2.ringId = s.ringId ∧
      (s.createTcpRing max d alloc f).2.numRings = s.numRings ∧
      (s.createTcpRing max d alloc f).2.users = s.users := by
  obtain ⟨s₁, hs⟩ : ∃ s₁, s₁ = { s with
      tables := (s.tables.createRing max d (.data .tcp) sizeofRingElement (maxNumDataRingElems d) alloc).2 } :=
    ⟨_, rfl⟩
  have hadd : s₁.Sound max := hs ▸ h.addTcp ha hr
  have hin : s₁.InUse max d id .tcp := (inUse_createRing hr (by rw [hs])).mpr (.inl ⟨rfl, rfl, rfl⟩)
  cases d with
  | f2a =>
    have heq : s.createTcpRing max .f2a alloc f = (some id, s₁) := by
      rw [hs]
      simp only [createTcpRing, hr]
    rw [heq]
    exact ⟨rfl, hadd, hin, by rw [hs], by rw [hs], by rw [hs]⟩
  | a2f =>
    have heq : s.createTcpRing max .a2f alloc f = (some id, s₁.refillBufs id (s₁.getDataRefillFn id) f) := by
      rw [hs]
      simp only [createTcpRing, hr]
    obtain ⟨hsound, hctx⟩ := hadd.refill hin f
    obtain ⟨hid, hnum, husers, -⟩ := s₁.refillBufs_other id (s₁.getDataRefillFn id) f
    rw [heq]
    exact ⟨rfl, hsound, hin.congr hctx, by rw [hid, hs], by rw [hnum, hs], by rw [husers, hs]⟩

/-- A creation that fails leaves everything in order. -/
theorem Sound.createNone (h : s.Sound max) (ha : alloc = 0 ∨ alloc ∉ s.tables.live) {post : RingUser} {size n : ℕ}
    (hr : (s.tables.createRing max d post size n alloc).1 = none) :
    { s with tables := (s.tables.createRing max d post size n alloc).2 }.Sound max := by
  have hctx : ∀ d' i type, InUse { s with tables := (s.tables.createRing max d post size n alloc).2 } max d' i type ↔
      s.InUse max d' i type := by
    intro d' i type
    rcases Tables.createRing_none hr with heq | ⟨id, hs, heq⟩
    · rw [heq]
    · rw [heq]
      by_cases hd : d' = d ∧ i = id
      · obtain ⟨rfl, rfl⟩ := hd
        refine iff_of_false (fun hin => ?_) fun hin => absurd (hin.state.symm.trans hs) RingState.noConfusion
        have hst := hin.state
        simp only [Tables.upd_self, CtxEntry.zero] at hst
        exact RingState.noConfusion hst
      · exact inUse_iff_of_entry (Tables.upd_of_ne hd)
  exact ⟨h.wf.create ha, h.typed.congr rfl (createRing_cleared ..),
    fun d' y i hin => h.ids.only d' y i ((hctx ..).mp hin),
    fun d' y => (h.ids.shared d' y).imp_right (hctx ..).mpr⟩

/-! ### Deletions -/

/-- A deletion passes the buffers on to the functions of their type if there are none, or if they are the ones that are
    chosen. -/
theorem typed_deleteDataRing (h : s.Typed) (hin : s.InUse max d id type) :
    (s.deleteDataRing max d id host).2.Typed ↔ s.NoBuffers d id ∨ s.getDataClearFn id = .data type := by
  have hw : Tables.Wiped d id (s.getDataClearFn id) host s.tables (s.deleteDataRing max d id host).2.tables :=
    Tables.wiped hin.lt (by rw [hin.state]; exact RingState.noConfusion)
  have hmem : ∀ y, y ∈ s.tables.clearElems d id (s.getDataClearFn id) (s.tables.ctx d id) ↔
      ∃ i < (s.tables.ctx d id).ringNumElem, (s.tables.elem (s.tables.ctx d id).pRingBase i).pBuf ≠ 0 ∧
        y = ⟨d, id, i, some (.data type), s.getDataClearFn id⟩ := by
    intro y
    rw [Tables.clearElems_eq, hin.post]
    simp only [List.mem_map, List.mem_filter, List.mem_range, decide_eq_true_eq, and_assoc]
    simp only [eq_comm]
  have hhandled : (s.deleteDataRing max d id host).2.handled = s.handled := rfl
  rw [Typed, hhandled, hw.cleared, ← List.append_assoc]
  constructor
  · intro htyped
    by_cases hno : s.NoBuffers d id
    · exact .inl hno
    · simp only [NoBuffers, not_forall] at hno
      obtain ⟨i, hi, hbuf⟩ := hno
      have hy := htyped _ (List.mem_append_right _ ((hmem _).mpr ⟨i, hi, hbuf, rfl⟩))
      exact .inr (Option.some.inj hy).symm
  · intro hor y hy
    rcases List.mem_append.mp hy with hy | hy
    · exact h y hy
    · obtain ⟨i, hi, hbuf, rfl⟩ := (hmem y).mp hy
      rcases hor with hno | hfn
      · exact absurd (hno i hi) hbuf
      · exact congrArg some hfn.symm

/-- Which rings are in use after a deletion. -/
theorem inUse_deleteDataRing (hin : s.InUse max d id type) (hs' : s'.tables = (s.deleteDataRing max d id host).2.tables)
    {d' : RingDir} {i : ℕ} {type' : DataRing} :
    s'.InUse max d' i type' ↔ ¬ (d' = d ∧ i = id) ∧ s.InUse max d' i type' := by
  have hw : Tables.Wiped d id (s.getDataClearFn id) host s.tables s'.tables := by
    rw [hs']
    exact Tables.wiped hin.lt (by rw [hin.state]; exact RingState.noConfusion)
  by_cases hd : d' = d ∧ i = id
  · obtain ⟨rfl, rfl⟩ := hd
    refine iff_of_false (fun h => ?_) fun h => h.1 ⟨rfl, rfl⟩
    have hst := h.state
    rw [hw.ctx, Tables.upd_self] at hst
    exact RingState.noConfusion hst
  · have hsame : s'.InUse max d' i type' ↔ s.InUse max d' i type' :=
      inUse_iff_of_entry (by rw [hw.ctx, Tables.upd_of_ne hd])
    rw [hsame, and_iff_right hd]

theorem deleteDataRing_fst (host : Option ℕ) (hin : s.InUse max d id type) :
    (s.deleteDataRing max d id host).1 = true ∧
      ((s.deleteDataRing max d id host).2.tables.ctx d id).ringState = .invalid := by
  have hs : (s.tables.ctx d id).ringState ≠ .invalid := by
    rw [hin.state]
    exact RingState.noConfusion
  have hw : Tables.Wiped d id (s.getDataClearFn id) host s.tables (s.deleteDataRing max d id host).2.tables :=
    Tables.wiped hin.lt hs
  refine ⟨?_, by rw [hw.ctx, Tables.upd_self]; rfl⟩
  rw [deleteDataRing, Tables.deleteDirRing_eq hin.lt hs]

/-! ### The counters -/

@[simp] theorem upd_self {α : Type*} (g : RingDir → SharedRing → α) (d : RingDir) (x : SharedRing) (v : α) :
    upd g d x v d x = v := by
  simp [upd]

theorem upd_of_ne {α : Type*} {g : RingDir → SharedRing → α} {d' : RingDir} {y : SharedRing} {v : α}
    (h : ¬ (d' = d ∧ y = x)) : upd g d x v d' y = g d' y := by
  rw [upd, if_neg h]

/-- The counters count the users, and a ring is there as long as it has one. -/
structure Inv (max : ℕ) (s : DataRings) : Prop where
  sound : s.Sound max
  count : ∀ d x, s.numRings d x = s.users d x ∧ s.users d x ≤ 255
  none_iff : ∀ d x, s.users d x = 0 ↔ s.ringId d x = max

theorem Sound.congr (h : s.Sound max) (ht : s'.tables = s.tables) (hh : s'.handled = s.handled)
    (hid : s'.ringId = s.ringId) : s'.Sound max :=
  ⟨ht ▸ h.wf, h.typed.congr hh (by rw [ht]), h.ids.congr (by rw [ht]) hid⟩

/-- One more user of a ring that is there. -/
theorem Sound.addUser (h : s.Sound max) (hc : ∀ d x, s.numRings d x = s.users d x ∧ s.users d x ≤ 255)
    (hu : s.users d x < 255) (hne : s.ringId d x ≠ max)
    (hother : ∀ d' y, ¬ (d' = d ∧ y = x) → (s.users d' y = 0 ↔ s.ringId d' y = max)) :
    Inv max { s with
      numRings := upd s.numRings d x ((s.numRings d x + 1) % 256)
      users := upd s.users d x (s.users d x + 1) } := by
  refine ⟨h.congr rfl rfl rfl, fun d' y => ?_, fun d' y => ?_⟩
  · by_cases hd : d' = d ∧ y = x
    · obtain ⟨rfl, rfl⟩ := hd
      simp only [upd_self, (hc d' y).1]
      omega
    · simp only [upd_of_ne hd]
      exact hc d' y
  · by_cases hd : d' = d ∧ y = x
    · obtain ⟨rfl, rfl⟩ := hd
      simp only [upd_self]
      exact iff_of_false (Nat.succ_ne_zero _) hne
    · simp only [upd_of_ne hd]
      exact hother d' y hd

namespace Inv

theorem inUse (h : Inv max s) (hu : s.users d x ≠ 0) : s.InUse max d (s.ringId d x) x.type :=
  (h.sound.ids.shared d x).resolve_left fun hmax => hu ((h.none_iff d x).mpr hmax)

/-- The creation of a shared ring. -/
theorem create (h : Inv max s) (hh : s.halted = false) (ha : alloc = 0 ∨ alloc ∉ s.tables.live)
    (hu : s.users d x < 255) :
    ((s.createSharedRing max d x alloc f).2.halted = true ∧ (s.createSharedRing max d x alloc f).2.Typed) ∨
      Inv max (s.createSharedRing max d x alloc f).2 ∧
        ∃ id, (s.createSharedRing max d x alloc f).1 = some id ∧
          (s.createSharedRing max d x alloc f).2.InUse max d id x.type ∧
          if s.users d x = 0 then (s.tables.ctx d id).ringState = .invalid
          else (s.createSharedRing max d x alloc f).2.tables = s.tables ∧ s.ringId d x = id := by
  by_cases h0 : s.users d x = 0
  · have hmax := (h.none_iff d x).mp h0
    cases hr : (s.tables.createRing max d (.data x.type) sizeofRingElement (maxNumDataRingElems d) alloc).1 with
    | none =>
      left
      simp only [createSharedRing, if_pos hmax, createDefaultRing, hr, if_true]
      exact ⟨trivial, h.sound.typed.congr rfl (createRing_cleared ..)⟩
    | some id =>
      right
      obtain ⟨hlt, hfree, -, -⟩ := Tables.createRing_eq hr
      obtain ⟨hsound, hin, hid, hnum, husers, hhalted⟩ := h.sound.createDefault (f := f) ha hmax hr
      have hself : (s.createDefaultRing max d x alloc f).ringId d x = id := by rw [hid, upd_self]
      have hstep : s.createSharedRing max d x alloc f =
          (some id, { s.createDefaultRing max d x alloc f with
            numRings := upd (s.createDefaultRing max d x alloc f).numRings d x
              (((s.createDefaultRing max d x alloc f).numRings d x + 1) % 256)
            users := upd (s.createDefaultRing max d x alloc f).users d x
              ((s.createDefaultRing max d x alloc f).users d x + 1) }) := by
        simp only [createSharedRing, if_pos hmax, hhalted, hh, Bool.false_eq_true, if_false, hself, if_pos hlt]
      rw [hstep]
      refine ⟨hsound.addUser ?_ (by rw [husers]; exact hu) (by rw [hself]; exact hlt.ne) ?_, id, rfl,
        hin.congr rfl, by rw [if_pos h0]; exact hfree⟩
      · rw [hnum, husers]
        exact h.count
      · intro d' y hd
        rw [husers, hid, upd_of_ne hd]
        exact h.none_iff d' y
  · right
    have hin := h.inUse h0
    have hmax : s.ringId d x ≠ max := hin.lt.ne
    have hstep : s.createSharedRing max d x alloc f =
        (some (s.ringId d x), { s with
          numRings := upd s.numRings d x ((s.numRings d x + 1) % 256)
          users := upd s.users d x (s.users d x + 1) }) := by
      simp only [createSharedRing, if_neg hmax, hh, Bool.false_eq_true, if_false, if_pos hin.lt]
    rw [hstep]
    exact ⟨h.sound.addUser h.count hu hmax fun d' y _ => h.none_iff d' y, _, rfl, hin.congr rfl,
      by rw [if_neg h0]; exact ⟨rfl, rfl⟩⟩

/-- What touches neither the ids nor the counters. -/
theorem of_sound (h : Inv max s) (hs : s'.Sound max) (hid : s'.ringId = s.ringId) (hnum : s'.numRings = s.numRings)
    (husers : s'.users = s.users) : Inv max s' :=
  ⟨hs, by rw [hnum, husers]; exact h.count, by rw [husers, hid]; exact h.none_iff⟩

theorem createTcp (h : Inv max s) (ha : alloc = 0 ∨ alloc ∉ s.tables.live) :
    Inv max (s.createTcpRing max d alloc f).2 ∧
      ∀ id, (s.createTcpRing max d alloc f).1 = some id →
        (s.createTcpRing max d alloc f).2.InUse max d id .tcp ∧ (s.tables.ctx d id).ringState = .invalid := by
  cases hr : (s.tables.createRing max d (.data .tcp) sizeofRingElement (maxNumDataRingElems d) alloc).1 with
  | none =>
    have hstep : s.createTcpRing max d alloc f = (none, { s with tables :=
        (s.tables.createRing max d (.data .tcp) sizeofRingElement (maxNumDataRingElems d) alloc).2 }) := by
      simp only [createTcpRing, hr]
    rw [hstep]
    exact ⟨h.of_sound (h.sound.createNone ha hr) rfl rfl rfl, fun id he => absurd he.symm (Option.some_ne_none id)⟩
  | some id =>
    obtain ⟨hlt, hfree, -, -⟩ := Tables.createRing_eq hr
    obtain ⟨hfst, hsound, hin, hid, hnum, husers⟩ := h.sound.createTcp (f := f) ha hr
    refine ⟨h.of_sound hsound hid hnum husers, fun i hi => ?_⟩
    rw [hfst] at hi
    obtain rfl := Option.some.inj hi
    exact ⟨hin, hfree⟩

end Inv

/-- A ring is deleted, and its global forgets it. -/
theorem Sound.delete (h : s.Sound max) (hin : s.InUse max d id type)
    (ht : s'.tables = (s.deleteDataRing max d id host).2.tables) (htyped : s'.Typed)
    (hid : ∀ d' y, s'.ringId d' y = if d' = d ∧ s.ringId d' y = id then max else s.ringId d' y) : s'.Sound max := by
  refine ⟨?_, htyped, fun d' y i hi => ?_, fun d' y => ?_⟩
  · rw [ht]
    exact h.wf.delete host
  · obtain ⟨hne, hold⟩ := (inUse_deleteDataRing hin ht).mp hi
    have honly := h.ids.only d' y i hold
    rw [hid, if_neg (by rw [honly]; exact hne), honly]
  · rw [hid]
    split
    · exact .inl rfl
    · rename_i hne
      exact (h.ids.shared d' y).imp_right fun hold => (inUse_deleteDataRing hin ht).mpr ⟨hne, hold⟩

namespace Inv

/-- The deletion of a shared ring for its last user. -/
theorem deleteLast (h : Inv max s) (host : Option ℕ) (hu : s.users d x = 1) (hid : s.ringId d x = id) :
    (s.deleteSharedRing max d x id host).1 = true ∧
      ((s.deleteSharedRing max d x id host).2.tables.ctx d id).ringState = .invalid ∧
      ((s.deleteSharedRing max d x id host).2.Typed ↔ s.NoBuffers d id ∨ s.getDataClearFn id = .data x.type) ∧
      ((s.deleteSharedRing max d x id host).2.Typed → Inv max (s.deleteSharedRing max d x id host).2) := by
  have hin : s.InUse max d id x.type := hid ▸ h.inUse (by omega)
  obtain ⟨s', hs'⟩ : ∃ s', s' = { (s.deleteDataRing max d id host).2 with
      numRings := upd s.numRings d x 0
      users := upd s.users d x 0
      ringId := upd s.ringId d x max } := ⟨_, rfl⟩
  have hstep : s.deleteSharedRing max d x id host = ((s.deleteDataRing max d id host).1, s') := by
    rw [hs', deleteSharedRing, if_pos (by rw [(h.count d x).1, hu]; exact one_ne_zero)]
    simp only [upd_self, (h.count d x).1, hu, Nat.sub_self, if_true]
    rfl
  have htables : s'.tables = (s.deleteDataRing max d id host).2.tables := by rw [hs']
  obtain ⟨hfst, hstate⟩ := deleteDataRing_fst host hin
  rw [hstep]
  refine ⟨hfst, by rw [htables]; exact hstate, ?_, fun htyped => ⟨?_, fun d' y => ?_, fun d' y => ?_⟩⟩
  · rw [← typed_deleteDataRing h.sound.typed hin, Typed, Typed, hs']
  · refine h.sound.delete hin htables htyped fun d' y => ?_
    by_cases hd : d' = d ∧ y = x
    · obtain ⟨rfl, rfl⟩ := hd
      rw [if_pos ⟨rfl, hid⟩, hs']
      exact upd_self _ _ _ _
    · rw [if_neg, hs']
      · exact upd_of_ne hd
      · rintro ⟨rfl, hy⟩
        refine h.sound.ids.ne (x := y) hin (fun hty => hd ⟨rfl, SharedRing.type_inj hty⟩) hy.symm
  · by_cases hd : d' = d ∧ y = x
    · obtain ⟨rfl, rfl⟩ := hd
      rw [hs']
      simp
    · rw [hs']
      simp only [upd_of_ne hd]
      exact h.count d' y
  · by_cases hd : d' = d ∧ y = x
    · obtain ⟨rfl, rfl⟩ := hd
      rw [hs']
      simp
    · rw [hs']
      simp only [upd_of_ne hd]
      exact h.none_iff d' y

/-- The deletion for another user, or without one. -/
theorem deleteOther (h : Inv max s) (id : ℕ) (host : Option ℕ) (hu : s.users d x ≠ 1) :
    (s.deleteSharedRing max d x id host).1 = true ∧ (s.deleteSharedRing max d x id host).2.tables = s.tables ∧
      Inv max (s.deleteSharedRing max d x id host).2 := by
  obtain ⟨hcount, hle⟩ := h.count d x
  have hkeep : ∀ s' : DataRings, s'.tables = s.tables → s'.handled = s.handled → s'.ringId = s.ringId →
      s'.numRings = upd s.numRings d x (s.numRings d x - 1) → s'.users = upd s.users d x (s.users d x - 1) →
      Inv max s' := by
    intro s' ht hh hid hnum husers
    refine ⟨h.sound.congr ht hh hid, fun d' y => ?_, fun d' y => ?_⟩
    · by_cases hd : d' = d ∧ y = x
      · obtain ⟨rfl, rfl⟩ := hd
        rw [hnum, husers, upd_self, upd_self, hcount]
        omega
      · rw [hnum, husers, upd_of_ne hd, upd_of_ne hd]
        exact h.count d' y
    · rw [husers, hid]
      by_cases hd : d' = d ∧ y = x
      · obtain ⟨rfl, rfl⟩ := hd
        rw [upd_self, ← h.none_iff d' y]
        omega
      · rw [upd_of_ne hd]
        exact h.none_iff d' y
  by_cases h0 : s.numRings d x = 0
  · have hstep : s.deleteSharedRing max d x id host = (true, { s with users := upd s.users d x (s.users d x - 1) }) := by
      rw [deleteSharedRing, if_neg (not_not.mpr h0)]
    rw [hstep]
    refine ⟨rfl, rfl, hkeep _ rfl rfl rfl ?_ rfl⟩
    funext d' y
    by_cases hd : d' = d ∧ y = x
    · obtain ⟨rfl, rfl⟩ := hd
      rw [upd_self, h0]
    · rw [upd_of_ne hd]
  · have hstep : s.deleteSharedRing max d x id host = (true, { s with
        numRings := upd s.numRings d x (s.numRings d x - 1)
        users := upd s.users d x (s.users d x - 1) }) := by
      rw [deleteSharedRing, if_pos h0]
      simp only [upd_self]
      rw [if_neg (by omega)]
    rw [hstep]
    exact ⟨rfl, rfl, hkeep _ rfl rfl rfl rfl rfl⟩

/-- The deletion of a ring for TCP. -/
theorem deleteTcp (h : Inv max s) (host : Option ℕ) (hin : s.InUse max d id .tcp) :
    (s.deleteTcpRing max d id host).1 = true ∧
      ((s.deleteTcpRing max d id host).2.tables.ctx d id).ringState = .invalid ∧
      ((s.deleteTcpRing max d id host).2.Typed ↔ s.NoBuffers d id ∨ s.getDataClearFn id = .data .tcp) ∧
      ((s.deleteTcpRing max d id host).2.Typed → Inv max (s.deleteTcpRing max d id host).2) := by
  obtain ⟨hfst, hstate⟩ := deleteDataRing_fst host hin
  refine ⟨hfst, hstate, typed_deleteDataRing h.sound.typed hin, fun htyped => ?_⟩
  refine h.of_sound (h.sound.delete hin rfl htyped fun d' y => ?_) rfl rfl rfl
  rw [if_neg]
  · rfl
  · rintro ⟨rfl, hy⟩
    exact h.sound.ids.ne (x := y) hin (by cases y <;> exact DataRing.noConfusion) hy.symm

/-- The other parties: they write indices and elements. -/
theorem memory (h : Inv max s) {a : TableAct} (ha : s.tables.Alloc a) (hctx : (s.tables.act max a).ctx = s.tables.ctx)
    (hc : (s.tables.act max a).cleared = s.tables.cleared) :
    Inv max { s with tables := s.tables.act max a } :=
  h.of_sound ⟨h.sound.wf.act ha, h.sound.typed.congr rfl hc, h.sound.ids.congr hctx rfl⟩ rfl rfl rfl

/-- An update of a ring. -/
theorem update (h : Inv max s) (hin : s.InUse max d id type) (L : List ℕ) : Inv max (s.handleDataRingUpdate d id L) := by
  cases d with
  | a2f =>
    rw [handleDataRingUpdate, h.sound.ids.refillFn hin]
    exact h.of_sound ⟨h.sound.wf.congr rfl rfl, h.sound.typed.handle rfl rfl hin, h.sound.ids.congr rfl rfl⟩ rfl rfl rfl
  | f2a =>
    rw [handleDataRingUpdate, h.sound.ids.clearFn hin]
    exact h.of_sound ⟨h.sound.wf.congr rfl rfl, h.sound.typed.handle rfl rfl hin, h.sound.ids.congr rfl rfl⟩ rfl rfl rfl

/-- One action: it is right exactly if an A2F ring that it deletes is matched, and then everything stays in order. -/
theorem step (h : Inv max s) (hh : s.halted = false) {a : DataRingAct} (hp : s.Proper max a) :
    (s.Right max a ↔ s.Matched a) ∧ (s.Matched a → (s.act max a).halted = true ∨ Inv max (s.act max a)) := by
  have hact : ∀ b, s.act max b = match b with
      | .create d x alloc f => (s.createSharedRing max d x alloc f).2
      | .createTcp d alloc f => (s.createTcpRing max d alloc f).2
      | .delete d x id host => (s.deleteSharedRing max d x id host).2
      | .deleteTcp d id host => (s.deleteTcpRing max d id host).2
      | .update d id L => s.handleDataRingUpdate d id L
      | .host d id v => { s with tables := s.tables.act max (.host d id v) }
      | .fw d id v => { s with tables := s.tables.act max (.fw d id v) }
      | .elems d id f => { s with tables := s.tables.act max (.elems d id f) } := by
    intro b
    rw [DataRings.act.eq_def, if_neg (by simp [hh])]
  have hfalse : ¬ s.halted = true := by simp [hh]
  cases a with
  | create d x alloc f =>
    rw [Right.eq_def, or_iff_right hfalse, hact]
    rcases h.create hh hp.1 hp.2 with ⟨hhalt, htyped⟩ | ⟨hinv, hspec⟩
    · exact ⟨iff_of_true ⟨htyped, .inl hhalt⟩ trivial, fun _ => .inl hhalt⟩
    · exact ⟨iff_of_true ⟨hinv.sound.typed, .inr hspec⟩ trivial, fun _ => .inr hinv⟩
  | createTcp d alloc f =>
    rw [Right.eq_def, or_iff_right hfalse, hact]
    obtain ⟨hinv, hspec⟩ := h.createTcp (d := d) (f := f) hp
    exact ⟨iff_of_true ⟨hinv.sound.typed, hspec⟩ trivial, fun _ => .inr hinv⟩
  | delete d x id host =>
    rw [Right.eq_def, or_iff_right hfalse, hact]
    dsimp only
    by_cases hu : s.users d x = 1
    · obtain ⟨hfst, hstate, htyped, hinv⟩ := h.deleteLast host hu (hp (by omega))
      rw [if_pos hu, and_iff_left (And.intro hfst hstate), htyped]
      cases d with
      | a2f =>
        rw [Matched, or_iff_right hfalse, or_iff_right (not_not.mpr hu)]
        exact ⟨Iff.rfl, fun hm => .inr (hinv (htyped.mpr hm))⟩
      | f2a =>
        have hin : s.InUse max .f2a id x.type := hp (by omega) ▸ h.inUse (by omega)
        have hfn := h.sound.ids.clearFn hin
        exact ⟨iff_of_true (.inr hfn) trivial, fun _ => .inr (hinv (htyped.mpr (.inr hfn)))⟩
    · obtain ⟨hfst, htables, hinv⟩ := h.deleteOther id host hu
      rw [if_neg hu]
      refine ⟨iff_of_true ⟨hinv.sound.typed, hfst, htables⟩ ?_, fun _ => .inr hinv⟩
      cases d with
      | a2f => exact .inr (.inl hu)
      | f2a => exact trivial
  | deleteTcp d id host =>
    rw [Right.eq_def, or_iff_right hfalse, hact]
    obtain ⟨hfst, hstate, htyped, hinv⟩ := h.deleteTcp host hp
    dsimp only
    rw [and_iff_left (And.intro hfst hstate), htyped]
    cases d with
    | a2f =>
      rw [Matched, or_iff_right hfalse]
      exact ⟨Iff.rfl, fun hm => .inr (hinv (htyped.mpr hm))⟩
    | f2a =>
      have hfn := h.sound.ids.clearFn hp
      exact ⟨iff_of_true (.inr hfn) trivial, fun _ => .inr (hinv (htyped.mpr (.inr hfn)))⟩
  | update d id L =>
    rw [Right.eq_def, or_iff_right hfalse, hact]
    obtain ⟨type, hin⟩ := hp
    have hinv := h.update hin L
    exact ⟨iff_of_true ⟨hinv.sound.typed, trivial⟩ trivial, fun _ => .inr hinv⟩
  | host d id v =>
    rw [Right.eq_def, or_iff_right hfalse, hact]
    have hinv := h.memory (a := .host d id v) trivial (by cases d <;> rfl) (by cases d <;> rfl)
    exact ⟨iff_of_true ⟨hinv.sound.typed, trivial⟩ trivial, fun _ => .inr hinv⟩
  | fw d id v =>
    rw [Right.eq_def, or_iff_right hfalse, hact]
    have hinv := h.memory (a := .fw d id v) trivial (by cases d <;> rfl) (by cases d <;> rfl)
    exact ⟨iff_of_true ⟨hinv.sound.typed, trivial⟩ trivial, fun _ => .inr hinv⟩
  | elems d id f =>
    rw [Right.eq_def, or_iff_right hfalse, hact]
    have hinv := h.memory (a := .elems d id f) trivial rfl rfl
    exact ⟨iff_of_true ⟨hinv.sound.typed, trivial⟩ trivial, fun _ => .inr hinv⟩

end Inv

/-! ### Runs -/

/-- The tables as `ringif_init` leaves them, or at any other time before a data ring is made. -/
structure Ready (t : Tables) : Prop where
  wf : t.WF
  post : ∀ d id type, (t.ctx d id).ringState = .inUse → (t.ctx d id).pfnPost2thread ≠ some (.data type)
  cleared : t.cleared = []

theorem ready_boot : Ready Tables.boot := ⟨Tables.wf_boot, fun _ _ _ h => RingState.noConfusion h, rfl⟩

/-- `create_config_rings` and `create_data_rings` make rings of their own kinds. -/
theorem Ready.create {t : Tables} (h : Ready t) {post : RingUser} (hpost : ∀ type, post ≠ .data type) (max : ℕ)
    (d : RingDir) (size n : ℕ) (ha : alloc = 0 ∨ alloc ∉ t.live) :
    Ready (t.createRing max d post size n alloc).2 := by
  refine ⟨h.wf.create ha, fun d' i type hs => ?_, (createRing_cleared ..).trans h.cleared⟩
  have hentry : ∀ e : CtxEntry, (e.ringState = .inUse → e.pfnPost2thread ≠ some (.data type)) →
      ∀ id, (Tables.upd t.ctx d id e d' i).ringState = .inUse →
        (Tables.upd t.ctx d id e d' i).pfnPost2thread ≠ some (.data type) := by
    intro e he id hst
    by_cases hd : d' = d ∧ i = id
    · obtain ⟨rfl, rfl⟩ := hd
      rw [Tables.upd_self] at hst ⊢
      exact he hst
    · rw [Tables.upd_of_ne hd] at hst ⊢
      exact h.post d' i type hst
  cases hr : (t.createRing max d post size n alloc).1 with
  | some id =>
    obtain ⟨-, -, -, heq⟩ := Tables.createRing_eq hr
    rw [heq] at hs ⊢
    exact hentry _ (fun _ he => hpost type (Option.some.inj he)) id hs
  | none =>
    rcases Tables.createRing_none hr with heq | ⟨id, -, heq⟩
    · rw [heq] at hs ⊢
      exact h.post d' i type hs
    · rw [heq] at hs ⊢
      exact hentry _ (fun he => RingState.noConfusion he) id hs

theorem inv_init {t : Tables} (h : Ready t) (max : ℕ) : Inv max (init max t) := by
  refine ⟨⟨h.wf, ?_, fun d x id hin => absurd hin.post (h.post d id _ hin.state), fun _ _ => .inl rfl⟩,
    fun _ _ => ⟨rfl, Nat.zero_le _⟩, fun _ _ => iff_of_true rfl rfl⟩
  intro y hy
  rw [init, h.cleared, List.append_nil] at hy
  exact absurd hy List.not_mem_nil

/-- Along every run of creations, deletions and updates, with whatever happens to the indices and elements in between:
    every call does what it is to do exactly if every A2F ring that is deleted with buffers in it has the type that
    the ids of the F2A rings make of its id. -/
theorem right_iff_matched (max : ℕ) {t : Tables} (ht : Ready t) {as : List DataRingAct}
    (hp : Along (act max) (Proper max) (init max t) as) :
    Along (act max) (Right max) (init max t) as ↔ Along (act max) Matched (init max t) as := by
  refine Along.iff (I := fun s => s.halted = true ∨ Inv max s) (fun s a hs hl hm => ?_)
    (fun s a hs hl => ?_) (.inr (inv_init ht max)) hp
  · cases hh : s.halted with
    | true => exact .inl (by rw [act.eq_def, if_pos hh, hh])
    | false => exact ((hs.resolve_left (by simp [hh])).step hh hl).2 hm
  · cases hh : s.halted with
    | true =>
      refine iff_of_true (.inl hh) ?_
      cases a with
      | delete d x id host =>
        cases d with
        | a2f => exact .inl hh
        | f2a => exact trivial
      | deleteTcp d id host =>
        cases d with
        | a2f => exact .inl hh
        | f2a => exact trivial
      | _ => exact trivial
    | false => exact ((hs.resolve_left (by simp [hh])).step hh hl).1

/-- The control and data rings of `ringif_init`, on blocks at 256, 512, 768 and 1024. -/
def exampleTables : Tables :=
  let t₁ := (Tables.boot.createRing 8 .f2a .ctrl sizeofRingElement 16 256).2
  let t₂ := (t₁.createRing 8 .a2f .ctrl sizeofRingElement 16 512).2
  let t₃ := (t₂.createRing 8 .f2a .hfc sizeofRingElement 32 768).2
  (t₃.createRing 8 .a2f .hfc sizeofRingElement 20 1024).2

theorem ready_exampleTables : Ready exampleTables := by
  refine Ready.create (Ready.create (Ready.create (Ready.create ready_boot ?_ 8 _ _ _ (.inr ?_)) ?_ 8 _ _ _ (.inr ?_))
    ?_ 8 _ _ _ (.inr ?_)) ?_ 8 _ _ _ (.inr ?_)
  all_goals first | exact fun _ => RingUser.noConfusion | decide

/-- The packet a refill finds. -/
def examplePacket : ℕ → Option Packet := fun i => some ⟨⟨4096 + i, 1600, 0, 4096 + i⟩, by simp [Element.Filled]⟩

/-- A UDP user in each direction: the ids agree, and the A2F ring is deleted with its buffers. -/
theorem right_of_both_directions :
    Along (act 8) (Right 8) (init 8 exampleTables)
      [.create .a2f .udp 2048 examplePacket, .create .f2a .udp 2304 examplePacket, .delete .a2f .udp 2 none] := by
  have hp : Along (act 8) (Proper 8) (init 8 exampleTables)
      [.create .a2f .udp 2048 examplePacket, .create .f2a .udp 2304 examplePacket, .delete .a2f .udp 2 none] :=
    ⟨⟨.inr (by decide), by decide⟩, ⟨.inr (by decide +kernel), by decide +kernel⟩, fun _ => by decide +kernel, trivial⟩
  refine (right_iff_matched 8 ready_exampleTables hp).mpr ⟨trivial, trivial, .inr (.inr (.inr ?_)), trivial⟩
  decide +kernel

/-- A UDP user that only sends: its buffers go to the TCP function. -/
theorem udp_buffers_freed_as_tcp :
    ¬ ∀ (max : ℕ) (t : Tables) (as : List DataRingAct), Ready t → Along (act max) (Proper max) (init max t) as →
      Along (act max) (Right max) (init max t) as := by
  intro h
  have hright := h 8 exampleTables [.create .a2f .udp 2048 examplePacket, .delete .a2f .udp 2 none] ready_exampleTables
    ⟨⟨.inr (by decide), by decide⟩, fun _ => by decide +kernel, trivial⟩
  rcases hright.2.1 with hhalt | ⟨htyped, -⟩
  · exact absurd hhalt (by decide +kernel)
  · exact absurd (htyped ⟨.a2f, 2, 0, some (.data .udp), .data .tcp⟩ (by decide +kernel)) (by decide)

end DataRings

end Qcc730.Ring
