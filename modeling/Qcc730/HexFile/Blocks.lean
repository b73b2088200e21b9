import Qcc730.Lib.Bytes
import Qcc730.Lib.Segments

/-! The block list of a `HexFile`: `modify`, `add` and `merge`.

    A block is a run of bytes at consecutive addresses, in a `bytearray` as a rule and in a `bytes`, which cannot be
    edited in place, where `fill` made it. `modify` joins its data with the first block that they overlap or touch
    and then takes in the blocks that follow, and it keeps the list in normal form unless it is given no data:
    between two blocks it adds them as an empty block. `add` and `merge` look for an overlap first. -/

namespace Qcc730.Hex
open Lib Lib.Segment

/-! ### The source -/

/-- The type of the data of a block. -/
inductive Kind where
  | bytes | bytearray
  deriving DecidableEq, Repr

abbrev HexBlock := Segment Kind UInt8

inductive FileType where
  | i8hex | i16hex | i32hex
  deriving DecidableEq, Repr

inductive HexError where
  | exception (message : String)
  | valueError
  | typeError
  | structError
  | keyError
  | indexError
  deriving DecidableEq, Repr

structure HexFile where
  blocks : List HexBlock
  fileType : FileType
  start : Option ℤ
  deriving DecidableEq, Repr

/-- `HexFile()` -/
def HexFile.empty : HexFile := ⟨[], .i8hex, none⟩

/-- The file after a call, and the exception if there is one. -/
structure Outcome where
  file : HexFile
  raised : Option HexError
  deriving DecidableEq, Repr

/-- The last `k` bytes, for a `k` that is positive: `data[-k:]`. -/
def lastBytes (data : Bytes) (k : ℤ) : Bytes := data.drop (data.length - k.toNat)

/-- `__check_overlap`: whether it raises. -/
def checkOverlap (blocks : List HexBlock) (address length : ℤ) : Bool :=
  blocks.any fun block => address < block.stop ∧ address + length > block.start

/-- The block that the data and a block which they overlap or touch are joined to. -/
def joined (block : HexBlock) (address : ℤ) (data : Bytes) : HexBlock where
  start := min address block.start
  data := (if address > block.start then block.data.take (address - block.start).toNat else []) ++ data ++
    (if address + data.length < block.stop then lastBytes block.data (block.stop - (address + data.length)) else [])
  tag := if address > block.start then block.tag else .bytearray

/-- The inner loop of `modify`: the blocks that follow are taken in as long as they overlap or touch. -/
def absorb (block : HexBlock) : List HexBlock → List HexBlock
  | [] => [block]
  | next :: blocks =>
    if next.start ≤ block.stop then
      absorb { block with data := block.data ++ next.data.drop (block.stop - next.start).toNat } blocks
    else block :: next :: blocks

/-- The outer loop, behind the blocks `before`. -/
def modifyFrom (address : ℤ) (data : Bytes) (before : List HexBlock) : List HexBlock → List HexBlock
  | [] => if data = [] then before else before ++ [⟨address, data, .bytearray⟩]
  | block :: blocks =>
    if address ≤ block.stop ∧ address + data.length ≥ block.start then
      before ++ absorb (joined block address data) blocks
    else if address < block.start then sort (before ++ block :: blocks ++ [⟨address, data, .bytearray⟩])
    else modifyFrom address data (before ++ [block]) blocks

/-- `modify`, which does not raise. -/
def modifyBlocks (blocks : List HexBlock) (address : ℤ) (data : Bytes) : List HexBlock :=
  modifyFrom address data [] blocks

namespace HexFile

def modify (h : HexFile) (address : ℤ) (data : Bytes) : Outcome :=
  ⟨{ h with blocks := modifyBlocks h.blocks address data }, none⟩

def overlaps : HexError := .exception "Data overlaps with existing data."

def add (h : HexFile) (address : ℤ) (data : Bytes) : Outcome :=
  if checkOverlap h.blocks address data.length then ⟨h, some overlaps⟩ else h.modify address data

def merge (h hexFile : HexFile) : Outcome :=
  if hexFile.blocks.any fun block => checkOverlap h.blocks block.start block.data.length then ⟨h, some overlaps⟩
  else
    ⟨{ h with
        blocks := hexFile.blocks.foldl (fun blocks block => modifyBlocks blocks block.start block.data) h.blocks
        start := match h.start with
          | none => hexFile.start
          | some s => some s }, none⟩

/-- The map that the blocks stand for. -/
def image (h : HexFile) : Image UInt8 := imageOf h.blocks

end HexFile

/-! ### The blocks of `modify` -/

variable {b : HexBlock} {before blocks bs cs : List HexBlock} {address : ℤ} {data : Bytes}

/-- The data are not empty, or touch a block, or lie behind all blocks. -/
def Placed (blocks : List HexBlock) (address : ℤ) (data : Bytes) : Prop :=
  data ≠ [] ∨ (∃ b ∈ blocks, b.start ≤ address ∧ address ≤ b.stop) ∨ ∀ b ∈ blocks, b.stop < address

instance : Decidable (Placed blocks address data) := inferInstanceAs (Decidable (_ ∨ _ ∨ _))

theorem or_comm_of_none {α : Type} {m n : Option α} (h : m = none ∨ n = none) : m.or n = n.or m := by
  rcases h with rfl | rfl <;> simp

/-- The bytes of a block from `e` on. -/
theorem ofList_lastBytes {e : ℤ} (h₁ : b.start ≤ e) (h₂ : e ≤ b.stop) (x : ℤ) :
    Image.ofList e (lastBytes b.data (b.stop - e)) x = if e ≤ x then b.image x else none := by
  obtain ⟨n, rfl⟩ := Int.le.dest h₁
  have hb : b.stop = b.start + b.data.length := rfl
  rw [lastBytes, show b.data.length - (b.stop - (b.start + n)).toNat = n by omega, Image.ofList_drop]
  rfl

/-- The bytes of a block before `a`. -/
theorem ofList_firstBytes {a : ℤ} (h : b.start ≤ a) (x : ℤ) :
    Image.ofList b.start (b.data.take (a - b.start).toNat) x = if x < a then b.image x else none := by
  rw [Image.ofList_take, show b.start + ((a - b.start).toNat : ℕ) = a by omega]
  rfl

section joined

variable (h : address ≤ b.stop ∧ address + data.length ≥ b.start)
include h

theorem joined_stop : (joined b address data).stop = max b.stop (address + data.length) := by
  have hb : b.stop = b.start + b.data.length := rfl
  have hj : (joined b address data).stop = min address b.start + (joined b address data).data.length := rfl
  rw [hj]
  simp only [joined, lastBytes, List.length_append, Nat.cast_add]
  split_ifs <;> simp only [List.length_take, List.length_drop, List.length_nil] <;> omega

theorem joined_image (x : ℤ) : (joined b address data).image x = (Image.ofList address data x).or (b.image x) := by
  have hb : b.stop = b.start + b.data.length := rfl
  have hleft : ∀ x, Image.ofList (min address b.start)
      (if address > b.start then b.data.take (address - b.start).toNat else []) x =
      if x < address then b.image x else none := by
    intro x
    split_ifs with ha hx hx
    · rw [min_eq_right ha.le, ofList_firstBytes ha.le, if_pos hx]
    · rw [min_eq_right ha.le, ofList_firstBytes ha.le, if_neg hx]
    · rw [image_eq_none_iff.mpr (by omega), Image.ofList_nil]
    · exact Image.ofList_nil
  have hright : ∀ x, Image.ofList (address + data.length)
      (if address + data.length < b.stop then lastBytes b.data (b.stop - (address + data.length)) else []) x =
      if address + data.length ≤ x then b.image x else none := by
    intro x
    split_ifs with he hx hx
    · rw [ofList_lastBytes h.2 he.le, if_pos hx]
    · rw [ofList_lastBytes h.2 he.le, if_neg hx]
    · rw [image_eq_none_iff.mpr (by omega), Image.ofList_nil]
    · exact Image.ofList_nil
  have hlen : min address b.start +
      (if address > b.start then b.data.take (address - b.start).toNat else []).length = address := by
    split_ifs with ha <;> simp only [List.length_take, List.length_nil] <;> omega
  rw [image, joined, Image.ofList_append, Image.ofList_append, hleft, List.length_append, Nat.cast_add, ← add_assoc,
    hlen, hright]
  rcases lt_or_ge x address with hx | hx
  · rw [if_pos hx, if_neg (by omega), Image.ofList_eq_none_iff.mpr (.inl hx), Option.or_none, Option.or_none,
      Option.none_or]
  rw [if_neg (by omega), Option.none_or]
  split_ifs with he
  · rfl
  · obtain ⟨v, hv⟩ := Option.ne_none_iff_exists'.mp (Image.ofList_ne_none_iff.mpr ⟨hx, not_le.mp he⟩)
    rw [hv]
    rfl

end joined

/-- A block that begins before the normal list `cs`, and the blocks that it takes in. -/
theorem absorb_spec (hn : Normal cs) (hb : b.data ≠ []) (hs : ∀ c ∈ cs, b.start ≤ c.start) :
    Normal (absorb b cs) ∧ (∀ d ∈ absorb b cs, b.start ≤ d.start) ∧
      ∀ x, imageOf (absorb b cs) x = (b.image x).or (imageOf cs x) := by
  induction cs generalizing b with
  | nil => exact ⟨⟨List.pairwise_singleton .., by simpa [absorb] using hb⟩, by simp [absorb], fun x => rfl⟩
  | cons c cs ih =>
    have hc := hs c (List.mem_cons_self ..)
    rw [absorb]
    split_ifs with hle
    · obtain ⟨hnorm, hstart, himage⟩ :=
        ih (b := { b with data := b.data ++ c.data.drop (b.stop - c.start).toNat }) hn.tail
          (List.append_ne_nil_of_left_ne_nil hb _) fun d hd => hs d (List.mem_cons_of_mem _ hd)
      refine ⟨hnorm, hstart, fun x => ?_⟩
      have hdrop : b.start + b.data.length = c.start + ((b.stop - c.start).toNat : ℕ) := by
        rw [← stop]
        omega
      rw [himage, imageOf_cons, ← Option.or_assoc, image, Image.ofList_append, hdrop, Image.ofList_drop]
      congr 1
      rcases lt_or_ge x b.stop with hx | hx
      · rw [if_neg (by omega), Option.or_none]
        rcases lt_or_ge x b.start with hlt | hge
        · rw [@image_eq_none_iff _ _ c |>.mpr (.inl (by omega)), Option.or_none]
          rfl
        · obtain ⟨v, hv⟩ := Option.ne_none_iff_exists'.mp (image_ne_none_iff.mpr ⟨hge, hx⟩)
          rw [hv, Option.some_or]
          exact hv
      · rw [if_pos (by omega)]
        rfl
    · refine ⟨⟨List.pairwise_cons.mpr ⟨?_, hn.inOrder⟩, ?_⟩, ?_, fun x => rfl⟩
      · rintro d (_ | ⟨_, hd⟩)
        · omega
        · have := hn.head_lt d hd
          have := hn.head_pos
          omega
      · rintro d (_ | ⟨_, hd⟩)
        · exact hb
        · exact hn.nonempty d hd
      · rintro d (_ | ⟨_, hd⟩)
        · exact le_rfl
        · exact hs d hd

/-- Where the blocks before have a byte, the data have none. -/
theorem before_or (hbefore : ∀ c ∈ before, c.stop < address) (x : ℤ) :
    (imageOf before x).or (Image.ofList address data x) = (Image.ofList address data x).or (imageOf before x) := by
  refine or_comm_of_none ?_
  rcases lt_or_ge x address with hx | hx
  · exact .inr (Image.ofList_eq_none_iff.mpr (.inl hx))
  · refine .inl (imageOf_eq_none_iff.mpr fun c hc => ?_)
    have := hbefore c hc
    omega

/-- Data behind all blocks are a new block. -/
theorem append_spec (hn : Normal before) (hbefore : ∀ c ∈ before, c.stop < address) (hd : data ≠ []) :
    Normal (before ++ [⟨address, data, .bytearray⟩]) ∧
      imageOf (before ++ [⟨address, data, .bytearray⟩]) = (imageOf before).overlay (Image.ofList address data) := by
  refine ⟨⟨List.pairwise_append.mpr ⟨hn.inOrder, List.pairwise_singleton .., ?_⟩, ?_⟩, ?_⟩
  · intro c hc d hd
    rw [List.mem_singleton.mp hd]
    have := hbefore c hc
    dsimp only
    omega
  · intro c hc
    rcases List.mem_append.mp hc with hc | hc
    · exact hn.nonempty c hc
    · rw [List.mem_singleton.mp hc]
      exact hd
  · funext x
    rw [imageOf_append, imageOf_cons, imageOf_nil, Option.or_none, image, before_or hbefore]
    rfl

theorem normal_of_behind (hn : Normal (before ++ b :: blocks)) : Normal (b :: blocks) :=
  ⟨(List.pairwise_append.mp hn.inOrder).2.1, fun c hc => hn.nonempty c (List.mem_append_right _ hc)⟩

/-- Data that touch a block are joined with it and with the blocks that they reach. -/
theorem joined_spec (hn : Normal (before ++ b :: blocks)) (hbefore : ∀ c ∈ before, c.stop < address)
    (htouch : address ≤ b.stop ∧ address + data.length ≥ b.start) :
    Normal (before ++ absorb (joined b address data) blocks) ∧
      imageOf (before ++ absorb (joined b address data) blocks) =
        (imageOf (before ++ b :: blocks)).overlay (Image.ofList address data) := by
  obtain ⟨hn₁, hn₂, hcross⟩ := List.pairwise_append.mp hn.inOrder
  have hnb := normal_of_behind hn
  have hj : (joined b address data).data ≠ [] := by
    rw [← start_lt_stop_iff, joined_stop htouch]
    exact lt_of_le_of_lt (min_le_right ..) (lt_of_lt_of_le hnb.head_pos (le_max_left ..))
  obtain ⟨hnorm, hstart, himage⟩ := absorb_spec hnb.tail hj fun c hc => by
    have := hnb.head_lt c hc
    have := hnb.head_pos
    exact le_trans (min_le_right ..) (by omega)
  refine ⟨⟨List.pairwise_append.mpr ⟨hn₁, hnorm.inOrder, ?_⟩, ?_⟩, ?_⟩
  · intro c hc d hd
    have := hcross c hc b (List.mem_cons_self ..)
    have := hbefore c hc
    have := hstart d hd
    have : (joined b address data).start = min address b.start := rfl
    omega
  · intro c hc
    rcases List.mem_append.mp hc with hc | hc
    · exact hn.nonempty c (List.mem_append_left _ hc)
    · exact hnorm.nonempty c hc
  · funext x
    rw [imageOf_append, himage, joined_image htouch, Option.or_assoc, ← Option.or_assoc, before_or hbefore,
      Option.or_assoc, Image.overlay, imageOf_append, imageOf_cons]

/-- Data that end before a block without touching it keep clear of every block. -/
theorem clear_of_lt (hn : Normal (before ++ b :: blocks)) (hbefore : ∀ c ∈ before, c.stop < address)
    (hlt : address + data.length < b.start) : Clear 1 (before ++ b :: blocks ++ [⟨address, data, .bytearray⟩]) := by
  have hnb := normal_of_behind hn
  refine List.pairwise_append.mpr ⟨hn.inOrder.clear, List.pairwise_singleton .., ?_⟩
  intro c hc d hd
  rw [List.mem_singleton.mp hd]
  have hnew : stop (⟨address, data, .bytearray⟩ : HexBlock) = address + data.length := rfl
  rw [hnew]
  dsimp only
  rcases List.mem_append.mp hc with hc | hc
  · have := hbefore c hc
    omega
  · have hbc : b.start ≤ c.start := by
      rcases List.mem_cons.mp hc with rfl | hc
      · exact le_rfl
      · have := hnb.head_lt c hc
        have := hnb.head_pos
        omega
    have := hnb.head_pos
    omega

/-- A new block that is clear of the others is sorted in. -/
theorem sorted_spec (hclear : Clear 1 (bs ++ [⟨address, data, .bytearray⟩])) (hne : ∀ c ∈ bs, c.data ≠ [])
    (hd : data ≠ []) : Normal (sort (bs ++ [⟨address, data, .bytearray⟩])) ∧
      imageOf (sort (bs ++ [⟨address, data, .bytearray⟩])) = (imageOf bs).overlay (Image.ofList address data) := by
  refine ⟨normal_sort hclear fun c hc => ?_, ?_⟩
  · rcases List.mem_append.mp hc with hc | hc
    · exact hne c hc
    · rw [List.mem_singleton.mp hc]
      exact hd
  · rw [imageOf_sort (hclear.mono (by decide))]
    funext x
    rw [imageOf_append, imageOf_cons, imageOf_nil, Option.or_none, image, Image.overlay]
    refine or_comm_of_none ?_
    by_contra! hx
    obtain ⟨⟨c, hc, hx₁, hx₂⟩, hx₃⟩ := And.imp imageOf_ne_none_iff.mp Image.ofList_ne_none_iff.mp hx
    rcases (List.pairwise_append.mp hclear).2.2 c hc _ (List.mem_singleton_self _) with hcd | hcd
    · dsimp only at hcd hx₃
      omega
    · simp only [stop] at hcd hx₂
      dsimp only at hx₃
      omega

/-- Data that lie in front of the next block, which they do not touch, are not empty. -/
theorem Placed.ne_nil (hp : Placed (b :: blocks) address data) (hn : Normal (b :: blocks)) (hlt : address < b.start) :
    data ≠ [] := by
  have hpos := hn.head_pos
  rcases hp with hd | ⟨c, hc, hca⟩ | hall
  · exact hd
  · rcases List.mem_cons.mp hc with rfl | hc
    · omega
    · have := hn.head_lt c hc
      omega
  · have := hall b (List.mem_cons_self ..)
    omega

/-- The outer loop lays the data over the map of all blocks. -/
theorem modifyFrom_spec (hn : Normal (before ++ blocks)) (hbefore : ∀ c ∈ before, c.stop < address)
    (hp : Placed blocks address data) :
    Normal (modifyFrom address data before blocks) ∧
      imageOf (modifyFrom address data before blocks) =
        (imageOf (before ++ blocks)).overlay (Image.ofList address data) := by
  induction blocks generalizing before with
  | nil =>
    rw [List.append_nil] at hn ⊢
    rw [modifyFrom]
    split_ifs with hd
    · subst hd
      exact ⟨hn, funext fun x => by simp [Image.overlay]⟩
    · exact append_spec hn hbefore hd
  | cons b blocks ih =>
    have hnb := normal_of_behind hn
    rw [modifyFrom]
    split_ifs with htouch hlt
    · exact joined_spec hn hbefore htouch
    · have hpos := hnb.head_pos
      exact sorted_spec (clear_of_lt hn hbefore (by omega)) hn.nonempty (hp.ne_nil hnb hlt)
    · have hb : b.stop < address := by omega
      rw [List.append_cons before b blocks] at hn ⊢
      refine ih hn ?_ ?_
      · intro c hc
        rcases List.mem_append.mp hc with hc | hc
        · exact hbefore c hc
        · rw [List.mem_singleton.mp hc]
          exact hb
      · refine hp.imp_right (Or.imp ?_ fun hall c hc => hall c (List.mem_cons_of_mem _ hc))
        rintro ⟨c, hc, hca⟩
        rcases List.mem_cons.mp hc with rfl | hc
        · omega
        · exact ⟨c, hc, hca⟩

/-- `modify` lays the data over the map. -/
theorem modifyBlocks_spec (hn : Normal bs) (hp : Placed bs address data) :
    Normal (modifyBlocks bs address data) ∧
      imageOf (modifyBlocks bs address data) = (imageOf bs).overlay (Image.ofList address data) :=
  @modifyFrom_spec [] bs address data hn (by simp) hp

/-! ### Overlaps and the merge -/

/-- The data are not empty, or lie at an end of a block, or behind all blocks. -/
def Addable (blocks : List HexBlock) (address : ℤ) (data : Bytes) : Prop :=
  data ≠ [] ∨ (∃ b ∈ blocks, address = b.start ∨ address = b.stop) ∨ ∀ b ∈ blocks, b.stop < address

instance : Decidable (Addable blocks address data) := inferInstanceAs (Decidable (_ ∨ _ ∨ _))

theorem Addable.placed (h : Addable bs address data) : Placed bs address data := by
  refine h.imp_right (Or.imp_left ?_)
  rintro ⟨b, hb, rfl | rfl⟩
  · exact ⟨b, hb, le_rfl, start_le_stop⟩
  · exact ⟨b, hb, start_le_stop, le_rfl⟩

/-- No address is inside of a block and at an end of another one. -/
theorem Addable.not_inside (hn : Normal bs) (h : Addable bs address []) (hb : b ∈ bs) :
    ¬(b.start < address ∧ address < b.stop) := by
  rintro ⟨h₁, h₂⟩
  rcases h with hd | ⟨c, hc, hca⟩ | hall
  · exact hd rfl
  · rcases eq_or_ne c b with rfl | hcb
    · omega
    · have := start_lt_stop_iff.mpr (hn.nonempty c hc)
      rcases hn.inOrder.clear.apart hc hb hcb with hlt | hlt <;> omega
  · have := hall b hb
    omega

theorem checkOverlap_iff (hn : Normal bs) (h : Addable bs address data) :
    checkOverlap bs address data.length = true ↔ (imageOf bs).Meets address (address + data.length) := by
  simp only [checkOverlap, List.any_eq_true, decide_eq_true_eq, Image.Meets, imageOf_ne_none_iff]
  constructor
  · rintro ⟨b, hb, h₁, h₂⟩
    have hd : data ≠ [] := by
      rintro rfl
      exact h.not_inside hn hb ⟨by simpa using h₂, h₁⟩
    have := List.length_pos_iff.mpr hd
    have := start_lt_stop_iff.mpr (hn.nonempty b hb)
    exact ⟨max address b.start, le_max_left .., by omega, b, hb, le_max_right .., by omega⟩
  · rintro ⟨x, h₁, h₂, b, hb, h₃, h₄⟩
    exact ⟨b, hb, by omega, by omega⟩

/-- A normal list of blocks is laid over the map, block by block. -/
theorem foldl_modifyBlocks (hn : Normal bs) (hc : Normal cs) :
    Normal (cs.foldl (fun blocks block => modifyBlocks blocks block.start block.data) bs) ∧
      imageOf (cs.foldl (fun blocks block => modifyBlocks blocks block.start block.data) bs) =
        (imageOf bs).overlay (imageOf cs) := by
  induction cs generalizing bs with
  | nil => exact ⟨hn, funext fun x => by simp [Image.overlay]⟩
  | cons c cs ih =>
    obtain ⟨hnorm, himage⟩ := modifyBlocks_spec hn (.inl (hc.nonempty c (List.mem_cons_self ..)))
    obtain ⟨hnorm, himage'⟩ := ih hnorm hc.tail
    refine ⟨hnorm, himage'.trans (funext fun x => ?_)⟩
    have hx : (imageOf cs x).or (c.image x) = (c.image x).or (imageOf cs x) := by
      refine or_comm_of_none ?_
      rcases lt_or_ge x c.stop with hx | hx
      · exact .inl (hc.imageOf_tail (by omega))
      · exact .inr (image_eq_none_iff.mpr (.inr hx))
    rw [himage, Image.overlay, Image.overlay, Image.overlay, ← Option.or_assoc, imageOf_cons, ← hx]
    rfl

end Qcc730.Hex
