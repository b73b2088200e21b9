import Qcc730.HexFile.Blocks

/-! `delete`, `fill` and `get` of a `HexFile`.

    `delete` cuts the blocks in place, and where it cuts the middle out of one it appends what is behind and sorts
    the list. It keeps the normal form unless it reaches a block whose data are a `bytes`, or is asked for no bytes
    inside of a block. `fill` makes a block for each gap and joins the blocks that touch; asked for no bytes outside
    of the blocks it makes an empty one. -/

namespace Qcc730.Hex
open Lib Lib.Segment

/-! ### The source -/

/-- What the loop of `delete` has made of the blocks, what it has appended, and whether a `bytes` has stopped it. -/
structure Deletion where
  blocks : List HexBlock
  added : List HexBlock
  raised : Bool

def Deletion.behind (block : HexBlock) (d : Deletion) : Deletion := { d with blocks := block :: d.blocks }

/-- The loop of `delete`. The address is moved up to the block at hand. -/
def deleteFrom (endAddr : ℤ) : ℤ → List HexBlock → Deletion
  | _, [] => ⟨[], [], false⟩
  | address, block :: blocks =>
    if endAddr < block.start then ⟨block :: blocks, [], false⟩
    else
      let address := if address < block.start then block.start else address
      if address ≤ block.stop then
        if address = block.start then
          if block.tag = .bytes then ⟨block :: blocks, [], true⟩
          else
            let delLen := min endAddr block.stop - block.start
            (deleteFrom endAddr address blocks).behind
              { block with start := block.start + delLen, data := block.data.drop delLen.toNat }
        else if endAddr ≥ block.stop then
          if block.tag = .bytes then ⟨block :: blocks, [], true⟩
          else
            (deleteFrom endAddr address blocks).behind
              { block with data := block.data.take (address - block.start).toNat }
        else
          -- the middle of the block: what is behind becomes a block of its own
          let rest : HexBlock := ⟨endAddr, lastBytes block.data (block.stop - endAddr), block.tag⟩
          if block.tag = .bytes then ⟨block :: blocks, [rest], true⟩
          else ⟨{ block with data := block.data.take (address - block.start).toNat } :: blocks, [rest], false⟩
      else (deleteFrom endAddr address blocks).behind block

/-- The block that `fill` makes where the address lies before a block. -/
def gapBefore (dataEnd : ℤ) (byte : Kind) (v : UInt8) (address : ℤ) (block : HexBlock) : List HexBlock :=
  if address < block.start then
    let fillLen := min dataEnd block.start - address
    [⟨address, List.replicate fillLen.toNat v, byte⟩]
  else []

/-- The gaps that `fill` finds, each filled, and the address behind. -/
def fillFrom (dataEnd : ℤ) (byte : Kind) (v : UInt8) : ℤ → List HexBlock → List HexBlock × ℤ
  | address, [] => ([], address)
  | address, block :: blocks =>
    let new := gapBefore dataEnd byte v address block
    let address := if address < block.start then block.stop else address
    if dataEnd ≤ block.stop then (new, address)
    else
      let r := fillFrom dataEnd byte v (max address block.stop) blocks
      (new ++ r.1, r.2)

/-- The blocks that `fill` makes where there are blocks already, `last` being the end of the last one. -/
def newBlocks (dataEnd : ℤ) (byte : Kind) (v : UInt8) (address last : ℤ) (blocks : List HexBlock) : List HexBlock :=
  let (new, address) := fillFrom dataEnd byte v address blocks
  if dataEnd > last then
    let address := max address last
    new ++ [⟨address, List.replicate (dataEnd - address).toNat v, byte⟩]
  else new

/-- The last loop of `fill`: a block is joined to the one before it where the two touch. -/
def joinTouching : List HexBlock → List HexBlock
  | [] => []
  | block :: blocks => join block blocks

/-- The loop of `get`: the bytes, and the address behind. -/
def getFrom (dataEnd : ℤ) (v : UInt8) : ℤ → List HexBlock → Bytes × ℤ
  | address, [] => ([], address)
  | address, block :: blocks =>
    let copyLen := min dataEnd block.start - address
    let filled := if address < block.start then List.replicate copyLen.toNat v else []
    let address := if address < block.start then address + copyLen else address
    let copyLen := min dataEnd block.stop - address
    let inside := block.start ≤ address ∧ address < block.stop
    let copied := if inside then (block.data.drop (address - block.start).toNat).take copyLen.toNat else []
    let address := if inside then address + copyLen else address
    if address = dataEnd then (filled ++ copied, address)
    else
      let r := getFrom dataEnd v address blocks
      (filled ++ copied ++ r.1, r.2)

/-- The argument `byte`, which is to be one byte. -/
structure Buffer where
  kind : Kind
  data : Bytes
  deriving DecidableEq, Repr

namespace HexFile

def startAddress (h : HexFile) : ℤ := match h.blocks.head? with
  | none => 0
  | some block => block.start

def endAddress (h : HexFile) : ℤ := match h.blocks.getLast? with
  | none => 0
  | some block => block.stop - 1

def delete (h : HexFile) (address : ℤ) (length : ℕ) : Outcome :=
  let d := deleteFrom (address + length) address h.blocks
  if d.raised then ⟨{ h with blocks := d.blocks ++ d.added }, some .typeError⟩
  else ⟨{ h with blocks := sort ((d.blocks ++ d.added).filter (·.data ≠ [])) }, none⟩

/-- The range of `fill`: `address` and `data_end`. -/
def fillRange (h : HexFile) (address : Option ℤ) (length : Option ℕ) : ℤ × ℤ :=
  let address := address.getD h.startAddress
  let length : ℤ := match length with
    | none => h.endAddress - address
    | some n => n
  (address, address + length)

def fill (h : HexFile) (address : Option ℤ) (length : Option ℕ) (byte : Buffer) : Outcome :=
  let (address, dataEnd) := h.fillRange address length
  match byte.data with
  | [v] =>
    match h.blocks.getLast? with
    | none => ⟨{ h with blocks := [⟨address, List.replicate (dataEnd - address).toNat v, byte.kind⟩] }, none⟩
    | some last =>
      let new := newBlocks dataEnd byte.kind v address last.stop h.blocks
      ⟨{ h with blocks := joinTouching (sort (h.blocks ++ new)) }, none⟩
  | _ => ⟨h, some .valueError⟩

/-- The range of `get`: `address` and `data_end`. -/
def getRange (h : HexFile) (address : Option ℤ) (length : Option ℕ) : ℤ × ℤ :=
  let address := address.getD h.startAddress
  let length : ℤ := match length, h.blocks.getLast? with
    | some n, _ => n
    | none, none => 0
    | none, some last => last.stop - address
  (address, address + length)

def get (h : HexFile) (address : Option ℤ) (length : Option ℕ) (byte : Bytes) : Except HexError Bytes :=
  let (address, dataEnd) := h.getRange address length
  match byte with
  | [v] =>
    let (data, address) := getFrom dataEnd v address h.blocks
    .ok (if address < dataEnd then data ++ List.replicate (dataEnd - address).toNat v else data)
  | _ => .error .valueError

end HexFile

/-! ### `delete` -/

variable {b : HexBlock} {bs : List HexBlock} {a e x : ℤ} {v : UInt8} {byte : Kind}

/-- No block from `a` up to `e` is a `bytes`, and there are bytes to delete or `a` is at an end of it. -/
def Deletable (blocks : List HexBlock) (a e : ℤ) : Prop :=
  ∀ b ∈ blocks, b.start ≤ e → a ≤ b.stop → b.tag = .bytearray ∧ (a < e ∨ a = b.start ∨ a = b.stop)

instance : Decidable (Deletable bs a e) := inferInstanceAs (Decidable (∀ b ∈ bs, _))

/-- Each run of `ds` lies within a run of `bs`. -/
def Within (ds bs : List HexBlock) : Prop := ∀ d ∈ ds, ∃ b ∈ bs, b.start ≤ d.start ∧ d.stop ≤ b.stop

theorem Within.cons {d : HexBlock} {ds : List HexBlock} (h : Within ds bs) (h₁ : b.start ≤ d.start)
    (h₂ : d.stop ≤ b.stop) : Within (d :: ds) (b :: bs) := by
  rintro c (_ | ⟨_, hc⟩)
  · exact ⟨b, List.mem_cons_self .., h₁, h₂⟩
  · obtain ⟨b', hb', hle⟩ := h c hc
    exact ⟨b', List.mem_cons_of_mem _ hb', hle⟩

theorem within_self : Within bs bs := fun d hd => ⟨d, hd, le_rfl, le_rfl⟩

/-- What the loop makes of a block, before what it makes of the blocks behind. -/
theorem clear_cons {d : HexBlock} {ds : List HexBlock} (hn : Normal (b :: bs)) (hw : Within ds bs) (hc : Clear 1 ds)
    (h : d.stop ≤ b.stop) : Clear 1 (d :: ds) := by
  refine List.pairwise_cons.mpr ⟨fun c hc => ?_, hc⟩
  obtain ⟨b', hb', hle, -⟩ := hw c hc
  have := hn.head_lt b' hb'
  omega

theorem imageOf_filter : imageOf (bs.filter (·.data ≠ [])) = imageOf bs := by
  induction bs with
  | nil => rfl
  | cons b bs ih =>
    funext x
    rw [List.filter_cons, imageOf_cons]
    split_ifs with h
    · rw [imageOf_cons, ih]
    · have hb : b.data = [] := by simpa using h
      rw [ih, image, hb, Image.ofList_nil, Option.none_or]

/-- The loop has not raised, and its blocks stand for the map of `bs` without the addresses from `a` up to `e`. -/
structure Deletion.Clears (d : Deletion) (bs : List HexBlock) (a e : ℤ) : Prop where
  raised : d.raised = false
  within : Within (d.blocks ++ d.added) bs
  clear : Clear 1 (d.blocks ++ d.added)
  image : imageOf (d.blocks ++ d.added) = (imageOf bs).erase a e

/-- One block, and the blocks behind it. The address that goes on may have been moved up to a place in the block. -/
theorem Deletion.Clears.behind {r : Deletion} {a' : ℤ} {d : HexBlock} (hn : Normal (b :: bs)) (h : r.Clears bs a' e)
    (ha' : a' = a ∨ a ≤ a' ∧ a' ≤ b.stop) (h₁ : b.start ≤ d.start) (h₂ : d.stop ≤ b.stop)
    (himage : ∀ x, d.image x = b.image.erase a e x) : (r.behind d).Clears (b :: bs) a e where
  raised := h.raised
  within := h.within.cons h₁ h₂
  clear := clear_cons hn h.within h.clear h₂
  image := by
    funext x
    have hx : imageOf (r.blocks ++ r.added) x = (imageOf bs).erase a e x := by
      rw [h.image, Image.erase, Image.erase]
      rcases ha' with rfl | ha'
      · rfl
      · rcases lt_or_ge x (b.stop + 1) with hlt | hge
        · rw [hn.imageOf_tail hlt, ite_self, ite_self]
        · exact if_congr (by omega) rfl rfl
    rw [Deletion.behind, List.cons_append, imageOf_cons, hx, himage]
    simp only [Image.erase, imageOf_cons]
    split_ifs <;> rfl

theorem Deletable.tail {a' : ℤ} (hn : Normal (b :: bs)) (h : Deletable (b :: bs) a e) (ha : a ≤ a')
    (ha' : a' = a ∨ a' ≤ b.stop) : Deletable bs a' e := fun c hc h₁ h₂ => by
  obtain ⟨htag, hedge⟩ := h c (List.mem_cons_of_mem _ hc) h₁ (by omega)
  have := hn.head_lt c hc
  exact ⟨htag, by omega⟩

/-- The loop ends before the block. -/
theorem deleteFrom_ends (hn : Normal (b :: bs)) (hlt : e < b.start) : (deleteFrom e a (b :: bs)).Clears (b :: bs) a e := by
  have hpos := hn.head_pos
  rw [deleteFrom, if_pos hlt]
  refine ⟨rfl, by simpa using within_self, by simpa using hn.inOrder.clear, funext fun x => ?_⟩
  rw [List.append_nil, Image.erase]
  split_ifs with hx
  · exact imageOf_eq_none_iff.mpr fun c hc => by
      rcases List.mem_cons.mp hc with rfl | hc
      · omega
      · have := hn.head_lt c hc
        omega
  · rfl

/-- The beginning of the block is deleted. -/
theorem deleteFrom_head (hn : Normal (b :: bs)) (htag : b.tag = .bytearray) (ha : a ≤ b.start) (hle : b.start ≤ e)
    (h : (deleteFrom e b.start bs).Clears bs b.start e) : (deleteFrom e a (b :: bs)).Clears (b :: bs) a e := by
  have hpos := hn.head_pos
  have hstop : b.stop = b.start + b.data.length := rfl
  have heq : deleteFrom e a (b :: bs) = (deleteFrom e b.start bs).behind
      { b with start := b.start + (min e b.stop - b.start)
               data := b.data.drop (min e b.stop - b.start).toNat } := by
    have hmax : (if a < b.start then b.start else a) = b.start := by split_ifs <;> omega
    rw [deleteFrom, if_neg (by omega)]
    dsimp only
    rw [hmax, if_pos hpos.le, if_pos rfl, if_neg (by rw [htag]; decide)]
  obtain ⟨n, hn'⟩ := Int.le.dest (show b.start ≤ min e b.stop by omega)
  rw [heq, show min e b.stop - b.start = n by omega, Int.toNat_natCast]
  refine h.behind hn (.inr ⟨ha, hpos.le⟩) ?_ ?_ fun x => ?_
  · dsimp only
    omega
  · simp only [stop, List.length_drop] at hn' ⊢
    omega
  · rw [image, Image.ofList_drop, Image.erase]
    split_ifs with h₁ h₂ h₂
    · exact (image_eq_none_iff (b := b)).mpr (by omega)
    · rfl
    · rfl
    · exact (image_eq_none_iff.mpr (by omega)).symm

/-- The block lies before the address. -/
theorem deleteFrom_past (hn : Normal (b :: bs)) (hle : b.start ≤ e) (hab : b.stop < a)
    (h : (deleteFrom e a bs).Clears bs a e) : (deleteFrom e a (b :: bs)).Clears (b :: bs) a e := by
  have hpos := hn.head_pos
  have heq : deleteFrom e a (b :: bs) = (deleteFrom e a bs).behind b := by
    have ha : ¬ a < b.start := by omega
    rw [deleteFrom, if_neg (by omega)]
    dsimp only
    rw [if_neg ha, if_neg (not_le.mpr hab)]
  rw [heq]
  refine h.behind hn (.inl rfl) le_rfl le_rfl fun x => ?_
  rw [Image.erase]
  split_ifs with hx
  · exact image_eq_none_iff.mpr (by omega)
  · rfl

/-- The end of the block is deleted. -/
theorem deleteFrom_end (hn : Normal (b :: bs)) (htag : b.tag = .bytearray) (ha : b.start < a) (hab : a ≤ b.stop)
    (hbe : b.stop ≤ e) (h : (deleteFrom e a bs).Clears bs a e) : (deleteFrom e a (b :: bs)).Clears (b :: bs) a e := by
  have hstop : b.stop = b.start + b.data.length := rfl
  have heq : deleteFrom e a (b :: bs) = (deleteFrom e a bs).behind
      { b with data := b.data.take (a - b.start).toNat } := by
    rw [deleteFrom, if_neg (by omega)]
    dsimp only
    rw [if_neg (not_lt.mpr ha.le), if_pos hab, if_neg ha.ne', if_pos hbe, if_neg (by rw [htag]; decide)]
  rw [heq]
  refine h.behind hn (.inl rfl) le_rfl ?_ fun x => ?_
  · simp only [stop, List.length_take]
    omega
  · rw [image, ofList_firstBytes ha.le, Image.erase]
    split_ifs with h₁ h₂ h₂
    · omega
    · rfl
    · rfl
    · exact (image_eq_none_iff.mpr (by omega)).symm

/-- The middle of the block is deleted, and its end becomes a block of its own. -/
theorem deleteFrom_middle (hn : Normal (b :: bs)) (htag : b.tag = .bytearray) (ha : b.start < a) (hae : a < e)
    (hbe : e < b.stop) : (deleteFrom e a (b :: bs)).Clears (b :: bs) a e := by
  have hstop : b.stop = b.start + b.data.length := rfl
  have heq : deleteFrom e a (b :: bs) = ⟨{ b with data := b.data.take (a - b.start).toNat } :: bs,
      [⟨e, lastBytes b.data (b.stop - e), b.tag⟩], false⟩ := by
    rw [deleteFrom, if_neg (by omega)]
    dsimp only
    rw [if_neg (not_lt.mpr ha.le), if_pos (hae.trans hbe).le, if_neg ha.ne', if_neg (not_le.mpr hbe),
      if_neg (by rw [htag]; decide)]
  have hstop₁ : stop { b with data := b.data.take (a - b.start).toNat } = a := by
    simp only [stop, List.length_take]
    omega
  have hstop₂ : stop (⟨e, lastBytes b.data (b.stop - e), b.tag⟩ : HexBlock) = b.stop := by
    rw [stop, lastBytes]
    simp only [List.length_drop]
    omega
  rw [heq]
  refine ⟨rfl, ?_, ?_, funext fun x => ?_⟩
  · rintro d hd
    rcases List.mem_append.mp hd with hd | hd
    · rcases List.mem_cons.mp hd with rfl | hd
      · exact ⟨b, List.mem_cons_self .., le_rfl, by omega⟩
      · exact ⟨d, List.mem_cons_of_mem _ hd, le_rfl, le_rfl⟩
    · rw [List.mem_singleton.mp hd]
      exact ⟨b, List.mem_cons_self .., (ha.trans hae).le, hstop₂.le⟩
  · refine List.pairwise_append.mpr ⟨clear_cons hn within_self hn.tail.inOrder.clear (by omega),
      List.pairwise_singleton .., fun c hc d hd => ?_⟩
    rw [List.mem_singleton.mp hd, hstop₂]
    dsimp only
    rcases List.mem_cons.mp hc with rfl | hc
    · omega
    · have := hn.head_lt c hc
      omega
  · rw [imageOf_append, imageOf_cons, imageOf_cons, imageOf_nil, Option.or_none, image, image,
      ofList_firstBytes ha.le, ofList_lastBytes (ha.trans hae).le hbe.le, Image.erase, imageOf_cons]
    rcases lt_or_ge x a with hxa | hxa
    · rw [if_pos hxa, if_neg (by omega), if_neg (by omega), Option.or_none]
    rw [if_neg (by omega), Option.none_or]
    rcases lt_or_ge x e with hxe | hxe
    · rw [if_neg (by omega), if_pos ⟨hxa, hxe⟩, hn.imageOf_tail (by omega), Option.none_or]
    · rw [if_pos hxe, if_neg (by omega)]
      refine or_comm_of_none ?_
      rcases lt_or_ge x b.stop with hxb | hxb
      · exact .inl (hn.imageOf_tail (by omega))
      · exact .inr (image_eq_none_iff.mpr (.inr hxb))

theorem deleteFrom_clears (hn : Normal bs) (hae : a ≤ e) (h : Deletable bs a e) :
    (deleteFrom e a bs).Clears bs a e := by
  induction bs generalizing a with
  | nil => exact ⟨rfl, by simp [deleteFrom, Within], List.Pairwise.nil, funext fun x => by simp [deleteFrom, Image.erase]⟩
  | cons b bs ih =>
    have hpos := hn.head_pos
    rcases lt_or_ge e b.start with hlt | hle
    · exact deleteFrom_ends hn hlt
    have hb := h b (List.mem_cons_self ..) hle
    rcases le_or_gt a b.start with ha | ha
    · exact deleteFrom_head hn (hb (by omega)).1 ha hle (ih hn.tail hle (h.tail hn ha (.inr hpos.le)))
    rcases lt_or_ge b.stop a with hab | hab
    · exact deleteFrom_past hn hle hab (ih hn.tail hae (h.tail hn le_rfl (.inl rfl)))
    obtain ⟨htag, hedge⟩ := hb hab
    rcases le_or_gt b.stop e with hbe | hbe
    · exact deleteFrom_end hn htag ha hab hbe (ih hn.tail hae (h.tail hn le_rfl (.inl rfl)))
    · exact deleteFrom_middle hn htag ha (by omega) hbe

theorem HexFile.delete_spec {h : HexFile} {n : ℕ} (hn : Normal h.blocks) (hd : Deletable h.blocks a (a + n)) :
    (h.delete a n).raised = none ∧ Normal (h.delete a n).file.blocks ∧
      (h.delete a n).file.image = h.image.erase a (a + n) := by
  have hc := deleteFrom_clears hn (by omega) hd
  have heq : h.delete a n = ⟨{ h with blocks := sort (((deleteFrom (a + n) a h.blocks).blocks ++
      (deleteFrom (a + n) a h.blocks).added).filter (·.data ≠ [])) }, none⟩ := by
    rw [HexFile.delete, if_neg (by rw [hc.raised]; decide)]
  have hclear : Clear 1 (((deleteFrom (a + n) a h.blocks).blocks ++
      (deleteFrom (a + n) a h.blocks).added).filter (·.data ≠ [])) := List.Pairwise.filter _ hc.clear
  rw [heq]
  refine ⟨rfl, normal_sort hclear fun b hb => by simpa using (List.mem_filter.mp hb).2, ?_⟩
  rw [HexFile.image, imageOf_sort (Clear.mono hclear (by decide)), imageOf_filter, hc.image]
  rfl

/-! ### `fill` -/

/-- There are addresses to fill, or the range lies in a block. -/
def Fillable (blocks : List HexBlock) (a e : ℤ) : Prop := a < e ∨ ∃ b ∈ blocks, b.start ≤ a ∧ e ≤ b.stop

instance : Decidable (Fillable bs a e) := inferInstanceAs (Decidable (_ ∨ ∃ b ∈ bs, _))

/-- The gaps from `a` up to `e`, filled. -/
def gaps (e : ℤ) (byte : Kind) (v : UInt8) : ℤ → List HexBlock → List HexBlock
  | a, [] => [⟨a, List.replicate (e - a).toNat v, byte⟩]
  | a, b :: bs => gapBefore e byte v a b ++ if e ≤ b.stop then [] else gaps e byte v (max a b.stop) bs

theorem fillFrom_cons (hn : Normal (b :: bs)) :
    fillFrom e byte v a (b :: bs) =
      if e ≤ b.stop then (gapBefore e byte v a b, if a < b.start then b.stop else a)
      else (gapBefore e byte v a b ++ (fillFrom e byte v (max a b.stop) bs).1,
        (fillFrom e byte v (max a b.stop) bs).2) := by
  have hpos := hn.head_pos
  have hmax : max (if a < b.start then b.stop else a) b.stop = max a b.stop := by split_ifs <;> omega
  rw [fillFrom]
  dsimp only
  rw [hmax]

/-- The range goes beyond all blocks: the last gap is behind them. -/
theorem gaps_eq_of_beyond (hn : Normal bs) (h : ∀ b ∈ bs, b.stop < e) :
    gaps e byte v a bs = (fillFrom e byte v a bs).1 ++
        [⟨(fillFrom e byte v a bs).2, List.replicate (e - (fillFrom e byte v a bs).2).toNat v, byte⟩] ∧
      a ≤ (fillFrom e byte v a bs).2 ∧ ∀ b ∈ bs, b.stop ≤ (fillFrom e byte v a bs).2 := by
  induction bs generalizing a with
  | nil => exact ⟨rfl, le_rfl, by simp⟩
  | cons b bs ih =>
    have hb := h b (List.mem_cons_self ..)
    obtain ⟨heq, hle, hstop⟩ := @ih (max a b.stop) hn.tail fun c hc => h c (List.mem_cons_of_mem _ hc)
    have hbe : ¬e ≤ b.stop := by omega
    rw [fillFrom_cons hn, if_neg hbe, gaps, if_neg hbe, heq]
    refine ⟨by rw [List.append_assoc], by dsimp only; omega, ?_⟩
    rintro c (_ | ⟨_, hc⟩)
    · dsimp only
      omega
    · exact hstop c hc

theorem gaps_eq_of_within (hn : Normal bs) (h : ∃ b ∈ bs, e ≤ b.stop) :
    gaps e byte v a bs = (fillFrom e byte v a bs).1 := by
  induction bs generalizing a with
  | nil =>
    obtain ⟨b, hb, -⟩ := h
    cases hb
  | cons b bs ih =>
    rw [fillFrom_cons hn, gaps]
    rcases le_or_gt e b.stop with hle | hlt
    · rw [if_pos hle, if_pos hle, List.append_nil]
    · obtain ⟨c, hc, hce⟩ := h
      rw [if_neg (not_le.mpr hlt), if_neg (not_le.mpr hlt)]
      rcases List.mem_cons.mp hc with rfl | hc
      · omega
      · rw [ih hn.tail ⟨c, hc, hce⟩]

theorem gaps_eq {last : HexBlock} (hn : Normal bs) (hlast : bs.getLast? = some last) :
    newBlocks e byte v a last.stop bs = gaps e byte v a bs := by
  obtain ⟨hmem, hle⟩ := hn.stop_le_last hlast
  rw [newBlocks]
  dsimp only
  split_ifs with h
  · have hbeyond : ∀ b ∈ bs, b.stop < e := fun b hb => lt_of_le_of_lt (hle b hb) h
    obtain ⟨heq, -, hstop⟩ : gaps e byte v a bs = _ ∧ _ := gaps_eq_of_beyond hn hbeyond
    rw [heq, max_eq_left (hstop last hmem)]
  · exact (gaps_eq_of_within hn ⟨last, hmem, not_lt.mp h⟩).symm

theorem gaps_eq_nil (hn : Normal bs) (h : e ≤ a) (hf : ∃ b ∈ bs, b.start ≤ a ∧ e ≤ b.stop) :
    gaps e byte v a bs = [] := by
  induction bs generalizing a with
  | nil =>
    obtain ⟨b, hb, -⟩ := hf
    cases hb
  | cons b bs ih =>
    obtain ⟨c, hc, hca, hce⟩ := hf
    have hpos := hn.head_pos
    rcases List.mem_cons.mp hc with rfl | hc
    · rw [gaps, gapBefore, if_neg (not_lt.mpr hca), if_pos hce]
      rfl
    · have := hn.head_lt c hc
      have hba : ¬a < b.start := by omega
      rw [gaps, gapBefore, if_neg hba, List.nil_append]
      split_ifs with hle
      · rfl
      · exact ih hn.tail (by omega) ⟨c, hc, by omega, hce⟩

theorem image_filled {s t : ℤ} (h : s ≤ t) :
    Image.ofList s (List.replicate (t - s).toNat v) x = if s ≤ x ∧ x < t then some v else none := by
  rw [Image.ofList_replicate, show s + ((t - s).toNat : ℕ) = t by omega]

theorem gapBefore_spec (h : a < e) :
    (∀ f ∈ gapBefore e byte v a b, f.data ≠ [] ∧ a ≤ f.start ∧ f.stop ≤ b.start) ∧
      InOrder 0 (gapBefore e byte v a b) ∧
      ∀ x, imageOf (gapBefore e byte v a b) x = if a ≤ x ∧ x < min e b.start then some v else none := by
  rw [gapBefore]
  split_ifs with ha
  · refine ⟨?_, List.pairwise_singleton .., fun x => ?_⟩
    · intro f hf
      rw [List.mem_singleton.mp hf]
      simp only [stop, ne_eq, List.replicate_eq_nil_iff, List.length_replicate]
      omega
    · have hle : a ≤ min e b.start := by omega
      rw [imageOf_cons, imageOf_nil, Option.or_none, image, image_filled hle]
  · refine ⟨by simp, List.Pairwise.nil, fun x => ?_⟩
    rw [if_neg (by omega), imageOf_nil]

theorem gaps_spec (hn : Normal bs) (h : a < e) :
    (∀ f ∈ gaps e byte v a bs, f.data ≠ [] ∧ a ≤ f.start) ∧ InOrder 0 (gaps e byte v a bs) ∧
      ∀ x, imageOf (gaps e byte v a bs) x = if (a ≤ x ∧ x < e) ∧ imageOf bs x = none then some v else none := by
  induction bs generalizing a with
  | nil =>
    refine ⟨?_, List.pairwise_singleton .., fun x => ?_⟩
    · simp only [gaps, List.mem_singleton]
      rintro f rfl
      exact ⟨by simp only [ne_eq, List.replicate_eq_nil_iff]; omega, le_rfl⟩
    · rw [gaps, imageOf_cons, imageOf_nil, Option.or_none, image, image_filled h.le]
      simp
  | cons b bs ih =>
    have hpos := hn.head_pos
    obtain ⟨hfirst, hinOrder, hfirstImage⟩ := @gapBefore_spec b a e v byte h
    have hnone : ∀ x, imageOf (b :: bs) x = none ↔ (x < b.start ∨ b.stop ≤ x) ∧ imageOf bs x = none := fun x => by
      rw [imageOf_cons, Option.or_eq_none_iff, image_eq_none_iff]
    rw [gaps]
    split_ifs with hle
    · rw [List.append_nil]
      refine ⟨fun f hf => ⟨(hfirst f hf).1, (hfirst f hf).2.1⟩, hinOrder, fun x => ?_⟩
      simp only [hfirstImage, hnone]
      refine if_congr ⟨fun hx => ⟨by omega, .inl (by omega), hn.imageOf_tail (by omega)⟩, ?_⟩ rfl rfl
      rintro ⟨hx, hb, -⟩
      omega
    · obtain ⟨hrest, hrestOrder, hrestImage⟩ := @ih (max a b.stop) hn.tail (by omega)
      refine ⟨fun f hf => ?_, List.pairwise_append.mpr ⟨hinOrder, hrestOrder, fun f hf d hd => ?_⟩, fun x => ?_⟩
      · rcases List.mem_append.mp hf with hf | hf
        · exact ⟨(hfirst f hf).1, (hfirst f hf).2.1⟩
        · exact ⟨(hrest f hf).1, by have := (hrest f hf).2; omega⟩
      · have := (hfirst f hf).2.2
        have := (hrest d hd).2
        omega
      · simp only [imageOf_append, hfirstImage, hrestImage, hnone]
        rcases lt_or_ge x b.start with hx | hx
        · rw [hn.imageOf_tail (by omega), @if_neg ((max a b.stop ≤ x ∧ x < e) ∧ _) _ (by omega), Option.or_none]
          exact if_congr (by simp only [hx, true_or, and_true]; omega) rfl rfl
        · rw [if_neg (by omega), Option.none_or]
          refine if_congr ⟨?_, ?_⟩ rfl rfl
          · rintro ⟨h₁, h₂⟩
            exact ⟨by omega, .inr (by omega), h₂⟩
          · rintro ⟨h₁, h₂, h₃⟩
            exact ⟨by omega, h₃⟩

/-- `fill` where there are blocks already. -/
theorem fillBlocks_spec (hn : Normal bs) (hf : Fillable bs a e) :
    Normal (joinTouching (sort (bs ++ gaps e byte v a bs))) ∧
      imageOf (joinTouching (sort (bs ++ gaps e byte v a bs))) = (imageOf bs).fill a e v := by
  have hspec : Clear 0 (bs ++ gaps e byte v a bs) ∧ (∀ b ∈ bs ++ gaps e byte v a bs, b.data ≠ []) ∧
      imageOf (bs ++ gaps e byte v a bs) = (imageOf bs).fill a e v := by
    rcases lt_or_ge a e with h | h
    · obtain ⟨hne, hinOrder, himage⟩ := @gaps_spec bs a e v byte hn h
      refine ⟨clear_append (hn.inOrder.imp fun hab => by omega) hinOrder hn.nonempty (fun f hf => (hne f hf).1)
        fun x => ?_, fun b hb => ?_, funext fun x => ?_⟩
      · rw [himage]
        split_ifs with hx
        · exact .inl hx.2
        · exact .inr rfl
      · exact (List.mem_append.mp hb).elim (hn.nonempty b) fun hb => (hne b hb).1
      · rw [imageOf_append, himage, Image.fill]
        cases imageOf bs x <;> simp
    · have hfill := hf.resolve_left (not_lt.mpr h)
      rw [gaps_eq_nil hn h hfill, List.append_nil]
      refine ⟨hn.clear, hn.nonempty, funext fun x => ?_⟩
      rw [Image.fill, if_neg (by omega)]
  obtain ⟨hclear, hne, himage⟩ := hspec
  have hsort := inOrder_sort le_rfl hclear hne
  have hsort' : ∀ b ∈ sort (bs ++ gaps e byte v a bs), b.data ≠ [] := fun b hb => hne b (mem_sort.mp hb)
  rw [← himage, ← imageOf_sort hclear]
  generalize sort (bs ++ gaps e byte v a bs) = cs at hsort hsort'
  cases cs with
  | nil => exact ⟨⟨List.Pairwise.nil, by simp [joinTouching]⟩, rfl⟩
  | cons c cs => exact ⟨normal_join hsort hsort', imageOf_join⟩

theorem HexFile.fill_spec {h : HexFile} {address : Option ℤ} {length : Option ℕ} (hn : Normal h.blocks)
    (hf : Fillable h.blocks (h.fillRange address length).1 (h.fillRange address length).2) :
    (h.fill address length ⟨byte, [v]⟩).raised = none ∧ Normal (h.fill address length ⟨byte, [v]⟩).file.blocks ∧
      (h.fill address length ⟨byte, [v]⟩).file.image =
        h.image.fill (h.fillRange address length).1 (h.fillRange address length).2 v := by
  rw [HexFile.fill]
  generalize h.fillRange address length = r at hf ⊢
  obtain ⟨a, e⟩ := r
  dsimp only at hf ⊢
  cases hlast : h.blocks.getLast? with
  | none =>
    have hbs := List.getLast?_eq_none_iff.mp hlast
    have hae : a < e := hf.resolve_right (by rw [hbs]; simp)
    refine ⟨rfl, ⟨List.pairwise_singleton .., ?_⟩, funext fun x => ?_⟩
    · simp only [List.mem_singleton]
      rintro b rfl
      simp only [ne_eq, List.replicate_eq_nil_iff]
      omega
    · simp only [HexFile.image, imageOf_cons, imageOf_nil, Option.or_none, Segment.image, image_filled hae.le,
        Image.fill, hbs]
      rfl
  | some last =>
    dsimp only
    rw [gaps_eq hn hlast]
    exact ⟨rfl, fillBlocks_spec hn hf⟩

/-! ### `get` -/

/-- The bytes of the loop, and of the addresses behind. -/
theorem getFrom_spec (hn : Normal bs) (h : a ≤ e) :
    (getFrom e v a bs).2 ≤ e ∧
      (getFrom e v a bs).1 ++ List.replicate (e - (getFrom e v a bs).2).toNat v =
        (imageOf bs).window a (e - a).toNat v := by
  induction bs generalizing a with
  | nil => exact ⟨h, (Image.window_none fun x _ _ => rfl).symm⟩
  | cons b bs ih =>
    have hpos := hn.head_pos
    have hstop : b.stop = b.start + b.data.length := rfl
    rw [getFrom]
    dsimp only
    -- the address behind what is filled, and the one behind what is copied
    obtain ⟨a₁, ha₁⟩ : ∃ a₁, a₁ = if a < b.start then a + (min e b.start - a) else a := ⟨_, rfl⟩
    rw [← ha₁]
    obtain ⟨a₂, ha₂⟩ : ∃ a₂, a₂ = if b.start ≤ a₁ ∧ a₁ < b.stop then a₁ + (min e b.stop - a₁) else a₁ := ⟨_, rfl⟩
    rw [← ha₂]
    have hle₁ : a ≤ a₁ ∧ a₁ ≤ e := by split_ifs at ha₁ <;> omega
    have hle₂ : a₁ ≤ a₂ ∧ a₂ ≤ e := by split_ifs at ha₂ <;> omega
    have hfilled : (if a < b.start then List.replicate (min e b.start - a).toNat v else []) =
        (imageOf (b :: bs)).window a (a₁ - a).toNat v := by
      split_ifs at ha₁ ⊢ with hab
      · rw [Image.window_none fun x h₁ h₂ => ?_, ha₁, show a + (min e b.start - a) - a = min e b.start - a by omega]
        exact imageOf_eq_none_iff.mpr fun c hc => by
          rcases List.mem_cons.mp hc with rfl | hc
          · omega
          · have := hn.head_lt c hc
            omega
      · rw [ha₁, sub_self]
        rfl
    have hcopied : (if b.start ≤ a₁ ∧ a₁ < b.stop then
        (b.data.drop (a₁ - b.start).toNat).take (min e b.stop - a₁).toNat else []) =
        (imageOf (b :: bs)).window a₁ (a₂ - a₁).toNat v := by
      split_ifs at ha₂ ⊢ with hin
      · rw [Image.window_ofList (s := b.start) (d := b.data) hin.1 (by omega) fun x h₁ h₂ => ?_, ha₂,
          show a₁ + (min e b.stop - a₁) - a₁ = min e b.stop - a₁ by omega]
        rw [imageOf_cons, hn.imageOf_tail (by omega), Option.or_none]
        rfl
      · rw [ha₂, sub_self]
        rfl
    have hsplit : (imageOf (b :: bs)).window a (e - a).toNat v =
        (imageOf (b :: bs)).window a (a₁ - a).toNat v ++ (imageOf (b :: bs)).window a₁ (a₂ - a₁).toNat v ++
          (imageOf (b :: bs)).window a₂ (e - a₂).toNat v := by
      rw [show (e - a).toNat = (a₁ - a).toNat + (a₂ - a₁).toNat + (e - a₂).toNat by omega, Image.window_add,
        Image.window_add, show a + ((a₁ - a).toNat : ℕ) = a₁ by omega,
        show a + ((a₁ - a).toNat + (a₂ - a₁).toNat : ℕ) = a₂ by omega]
    rw [hfilled, hcopied, hsplit]
    split_ifs with hend
    · subst hend
      exact ⟨le_rfl, by simp [Image.window]⟩
    · obtain ⟨hle, htail⟩ := ih hn.tail hle₂.2
      refine ⟨hle, ?_⟩
      dsimp only
      rw [List.append_assoc, htail]
      congr 1
      refine List.map_congr_left fun i hi => ?_
      rw [imageOf_cons, image_eq_none_iff.mpr, Option.none_or]
      split_ifs at ha₁ ha₂ <;> omega

theorem getFrom_beyond (h : ∀ b ∈ bs, b.start < b.stop ∧ b.stop ≤ a) : getFrom e v a bs = ([], a) := by
  induction bs with
  | nil => rfl
  | cons b bs ih =>
    obtain ⟨hpos, hle⟩ := h b (List.mem_cons_self ..)
    have hnlt : ¬a < b.start := by omega
    have hnin : ¬(b.start ≤ a ∧ a < b.stop) := by omega
    rw [getFrom]
    dsimp only
    rw [if_neg hnlt, if_neg hnlt, if_neg hnin, if_neg hnin, ih fun c hc => h c (List.mem_cons_of_mem _ hc)]
    exact ite_self _

/-- Where the range is empty because the default length is negative, it begins behind the last block. -/
theorem HexFile.getRange_beyond {h : HexFile} {address : Option ℤ} {length : Option ℕ} (hn : Normal h.blocks)
    (hlt : (h.getRange address length).2 < (h.getRange address length).1) :
    ∀ b ∈ h.blocks, b.start < b.stop ∧ b.stop ≤ (h.getRange address length).1 := fun b hb => by
  refine ⟨start_lt_stop_iff.mpr (hn.nonempty b hb), ?_⟩
  cases length with
  | some n =>
    simp only [getRange] at hlt
    omega
  | none =>
    cases hlast : h.blocks.getLast? with
    | none =>
      rw [List.getLast?_eq_none_iff.mp hlast] at hb
      cases hb
    | some last =>
      have := (hn.stop_le_last hlast).2 b hb
      simp only [getRange, hlast] at hlt ⊢
      omega

theorem HexFile.get_eq {h : HexFile} {address : Option ℤ} {length : Option ℕ} (hn : Normal h.blocks) :
    h.get address length [v] = .ok (h.image.window (h.getRange address length).1
      ((h.getRange address length).2 - (h.getRange address length).1).toNat v) := by
  have hbeyond := @HexFile.getRange_beyond h address length hn
  rw [HexFile.get]
  generalize h.getRange address length = r at hbeyond ⊢
  obtain ⟨a, e⟩ := r
  dsimp only at hbeyond ⊢
  rcases le_or_gt a e with hle | hlt
  · obtain ⟨hend, hbytes⟩ := @getFrom_spec h.blocks a e v hn hle
    rw [HexFile.image, ← hbytes]
    split_ifs with hmore
    · rfl
    · rw [show (e - (getFrom e v a h.blocks).2).toNat = 0 by omega, List.replicate_zero, List.append_nil]
  · rw [getFrom_beyond (hbeyond hlt), if_neg (not_lt.mpr hlt.le), show (e - a).toNat = 0 by omega]
    rfl

end Qcc730.Hex
