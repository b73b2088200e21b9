import Qcc730.HexFile.Regions
import Qcc730.Lib.Reach

/-! A `HexFile` as a partial map, over whole runs of its calls.

    The map operation of each call is stated on maps alone, the default addresses of `fill` and `get` being the first
    and the last address of the map. A run keeps to them, and its blocks in normal form, as long as no call is one of
    those that leave an empty block or split one in two that touch, and none deletes from a block that `fill` has
    made. -/

namespace Qcc730.Hex
open Lib Lib.Segment

/-! ### Calls -/

inductive Op where
  | add (address : ℤ) (data : Bytes)
  | modify (address : ℤ) (data : Bytes)
  | delete (address : ℤ) (length : ℕ)
  | merge (hexFile : HexFile)
  | fill (address : Option ℤ) (length : Option ℕ) (byte : Buffer)

namespace HexFile

def perform (h : HexFile) : Op → Outcome
  | .add address data => h.add address data
  | .modify address data => h.modify address data
  | .delete address length => h.delete address length
  | .merge hexFile => h.merge hexFile
  | .fill address length byte => h.fill address length byte

def act (h : HexFile) (op : Op) : HexFile := (h.perform op).file

end HexFile

namespace Op

/-- When a call is to raise: where the data lie on data, and where the byte to fill with is not one byte. -/
def Raises (m : Image UInt8) : Op → Prop
  | add address data => m.Meets address (address + data.length)
  | merge hexFile => ∃ x, m x ≠ none ∧ hexFile.image x ≠ none
  | fill _ _ byte => byte.data.length ≠ 1
  | _ => False

/-- What a call that returns does to the map. -/
noncomputable def effect (m : Image UInt8) : Op → Image UInt8
  | add address data => m.overlay (Image.ofList address data)
  | modify address data => m.overlay (Image.ofList address data)
  | delete address length => m.erase address (address + length)
  | merge hexFile => m.overlay hexFile.image
  | fill address length byte =>
    let address := address.getD m.first
    let length : ℤ := match length with
      | none => m.last - address
      | some n => n
    m.fill address (address + length) (byte.data.headD 0)

open Classical in
/-- The map operation of a call. -/
noncomputable def apply (m : Image UInt8) (op : Op) : Image UInt8 := if op.Raises m then m else op.effect m

end Op

open Classical in
/-- The bytes that `get` is to return. -/
noncomputable def bytesOf (m : Image UInt8) (address : Option ℤ) (length : Option ℕ) (v : UInt8) : Bytes :=
  let address := address.getD m.first
  let length : ℤ := match length with
    | none => if m.dom.Nonempty then m.last + 1 - address else 0
    | some n => n
  m.window address length.toNat v

/-- A call that does not reach what is wrong with the source. -/
def Safe (h : HexFile) : Op → Prop
  | .add address data => Addable h.blocks address data
  | .modify address data => Placed h.blocks address data
  | .delete address length => Deletable h.blocks address (address + length)
  | .merge hexFile => Normal hexFile.blocks
  | .fill address length byte =>
    byte.data.length = 1 → Fillable h.blocks (h.fillRange address length).1 (h.fillRange address length).2

instance : ∀ (h : HexFile) (op : Op), Decidable (Safe h op)
  | h, .add address data => inferInstanceAs (Decidable (Addable h.blocks address data))
  | h, .modify address data => inferInstanceAs (Decidable (Placed h.blocks address data))
  | h, .delete address length => inferInstanceAs (Decidable (Deletable h.blocks address (address + length)))
  | _, .merge hexFile => inferInstanceAs (Decidable (Normal hexFile.blocks))
  | _, .fill _ _ _ => inferInstanceAs (Decidable (_ → _))

/-- A call that does to the map what it is to do, and leaves the blocks in order, not empty, and apart. -/
structure Correct (h : HexFile) (op : Op) : Prop where
  normal : Normal (h.act op).blocks
  raises : (h.perform op).raised ≠ none ↔ op.Raises h.image
  unchanged : (h.perform op).raised ≠ none → h.act op = h
  image : (h.act op).image = op.apply h.image
  get : ∀ address length v, (h.act op).get address length [v] = .ok (bytesOf (h.act op).image address length v)

/-! ### One call -/

variable {h : HexFile} {op : Op}

theorem image_dom_nonempty_iff (hn : Normal h.blocks) : h.image.dom.Nonempty ↔ h.blocks ≠ [] := by
  constructor
  · rintro ⟨x, hx⟩ hnil
    obtain ⟨b, hb, -⟩ := imageOf_ne_none_iff.mp hx
    rw [hnil] at hb
    cases hb
  · intro hne
    obtain ⟨b, hb⟩ := List.exists_mem_of_ne_nil _ hne
    exact ⟨b.start, imageOf_ne_none_iff.mpr ⟨b, hb, le_rfl, start_lt_stop_iff.mpr (hn.nonempty b hb)⟩⟩

theorem dom_eq_empty (hnil : h.blocks = []) : h.image.dom = ∅ :=
  Set.eq_empty_iff_forall_notMem.mpr fun x hx => hx (by rw [HexFile.image, hnil]; rfl)

theorem startAddress_eq (hn : Normal h.blocks) : h.startAddress = h.image.first := by
  cases hb : h.blocks with
  | nil => rw [Image.first, dom_eq_empty hb, Int.csInf_empty, HexFile.startAddress, hb]; rfl
  | cons b bs =>
    rw [hb] at hn
    rw [HexFile.startAddress, HexFile.image, hb, hn.first_eq]
    rfl

theorem endAddress_eq (hn : Normal h.blocks) : h.endAddress = h.image.last := by
  cases hlast : h.blocks.getLast? with
  | none =>
    rw [Image.last, dom_eq_empty (List.getLast?_eq_none_iff.mp hlast), Int.csSup_empty, HexFile.endAddress, hlast]
  | some last => rw [HexFile.endAddress, hlast, HexFile.image, hn.last_eq hlast]

theorem get_eq_bytesOf (hn : Normal h.blocks) (address : Option ℤ) (length : Option ℕ) (v : UInt8) :
    h.get address length [v] = .ok (bytesOf h.image address length v) := by
  rw [h.get_eq hn]
  simp only [bytesOf, HexFile.getRange, startAddress_eq hn, add_sub_cancel_left]
  congr 3
  cases length with
  | some n => rfl
  | none =>
    cases hlast : h.blocks.getLast? with
    | none =>
      have hnil := List.getLast?_eq_none_iff.mp hlast
      rw [if_neg (by rw [image_dom_nonempty_iff hn]; exact not_not.mpr hnil)]
    | some last =>
      have hne : h.blocks ≠ [] := by
        rintro hnil
        rw [hnil] at hlast
        cases hlast
      rw [if_pos ((image_dom_nonempty_iff hn).mpr hne), HexFile.image, hn.last_eq hlast]
      dsimp only
      omega

/-- A call that returns, once its blocks and its map are known. -/
theorem Correct.of_returns (hraised : (h.perform op).raised = none) (hnot : ¬op.Raises h.image)
    (hn : Normal (h.act op).blocks) (himage : (h.act op).image = op.effect h.image) : Correct h op where
  normal := hn
  raises := iff_of_false (not_not.mpr hraised) hnot
  unchanged := fun hne => absurd hraised hne
  image := by rw [himage, Op.apply, if_neg hnot]
  get := get_eq_bytesOf hn

theorem Correct.of_raises (hn : Normal h.blocks) (hraised : (h.perform op).raised ≠ none) (hr : op.Raises h.image)
    (hact : h.act op = h) : Correct h op where
  normal := hact.symm ▸ hn
  raises := iff_of_true hraised hr
  unchanged := fun _ => hact
  image := by rw [hact, Op.apply, if_pos hr]
  get := by rw [hact]; exact get_eq_bytesOf hn

theorem correct_of_safe (hn : Normal h.blocks) (hs : Safe h op) : Correct h op := by
  cases op with
  | add address data =>
    have hiff := checkOverlap_iff hn hs
    by_cases hr : checkOverlap h.blocks address data.length = true
    · have hadd : h.perform (.add address data) = ⟨h, some HexFile.overlaps⟩ := by
        rw [HexFile.perform, HexFile.add, if_pos hr]
      exact .of_raises hn (by rw [hadd]; simp) (hiff.mp hr) (by rw [HexFile.act, hadd])
    · have hadd : h.perform (.add address data) = h.modify address data := by
        rw [HexFile.perform, HexFile.add, if_neg hr]
      have hnot : ¬(Op.add address data).Raises h.image := fun hm => hr (hiff.mpr hm)
      obtain ⟨hnorm, himage⟩ := modifyBlocks_spec hn hs.placed
      refine .of_returns (by rw [hadd]; rfl) hnot (by rw [HexFile.act, hadd]; exact hnorm) ?_
      rw [HexFile.act, hadd]
      exact himage
  | modify address data =>
    obtain ⟨hnorm, himage⟩ := modifyBlocks_spec hn hs
    exact .of_returns rfl id hnorm himage
  | delete address length =>
    obtain ⟨hraised, hnorm, himage⟩ := HexFile.delete_spec hn hs
    exact .of_returns hraised id hnorm himage
  | merge o =>
    have hiff : (o.blocks.any fun block => checkOverlap h.blocks block.start block.data.length) = true ↔
        (Op.merge o).Raises h.image := by
      rw [List.any_eq_true]
      constructor
      · rintro ⟨b, hb, hover⟩
        obtain ⟨x, h₁, h₂, hx⟩ := (checkOverlap_iff hn (.inl (hs.nonempty b hb))).mp hover
        exact ⟨x, hx, imageOf_ne_none_iff.mpr ⟨b, hb, h₁, h₂⟩⟩
      · rintro ⟨x, hx, hox⟩
        obtain ⟨b, hb, h₁, h₂⟩ := imageOf_ne_none_iff.mp hox
        exact ⟨b, hb, (checkOverlap_iff hn (.inl (hs.nonempty b hb))).mpr ⟨x, h₁, h₂, hx⟩⟩
    by_cases hr : (o.blocks.any fun block => checkOverlap h.blocks block.start block.data.length) = true
    · have hmerge : h.perform (.merge o) = ⟨h, some HexFile.overlaps⟩ := by
        rw [HexFile.perform, HexFile.merge, if_pos hr]
      exact .of_raises hn (by rw [hmerge]; simp) (hiff.mp hr) (by rw [HexFile.act, hmerge])
    · have hnot : ¬(Op.merge o).Raises h.image := fun hm => hr (hiff.mpr hm)
      obtain ⟨hnorm, himage⟩ := foldl_modifyBlocks hn hs
      have hblocks : (h.act (.merge o)).blocks =
          o.blocks.foldl (fun blocks block => modifyBlocks blocks block.start block.data) h.blocks := by
        rw [HexFile.act, HexFile.perform, HexFile.merge, if_neg hr]
      refine .of_returns (by rw [HexFile.perform, HexFile.merge, if_neg hr]) hnot (hblocks ▸ hnorm) ?_
      rw [HexFile.image, hblocks]
      exact himage
  | fill address length byte =>
    obtain ⟨kind, data⟩ := byte
    rcases data with _ | ⟨v, _ | ⟨w, rest⟩⟩
    · exact .of_raises hn (by simp [HexFile.perform, HexFile.fill]) (by simp [Op.Raises]) rfl
    · obtain ⟨hraised, hnorm, himage⟩ := @HexFile.fill_spec v kind h address length hn (hs rfl)
      refine .of_returns hraised (not_not.mpr rfl) hnorm ?_
      simp only [HexFile.fillRange, startAddress_eq hn, endAddress_eq hn] at himage
      exact himage
    · exact .of_raises hn (by simp [HexFile.perform, HexFile.fill]) (by simp [Op.Raises]) rfl

/-! ### Runs -/

theorem normal_empty : Normal HexFile.empty.blocks := ⟨List.Pairwise.nil, by simp [HexFile.empty]⟩

theorem image_run {ops : List Op} (hn : Normal h.blocks) (hs : Along HexFile.act Safe h ops) :
    (ops.foldl HexFile.act h).image = ops.foldl Op.apply h.image := by
  induction ops generalizing h with
  | nil => rfl
  | cons op ops ih =>
    have hc := correct_of_safe hn hs.1
    rw [List.foldl_cons, ih hc.normal hs.2, hc.image, List.foldl_cons]

/-- In a run of calls that are all safe each call does what it is to do, and the file stands for the map that the
    map operations give. -/
theorem partial_map_along {ops : List Op} (hs : Along HexFile.act Safe .empty ops) :
    Along HexFile.act Correct .empty ops ∧
      (ops.foldl HexFile.act .empty).image = ops.foldl Op.apply fun _ => none := by
  refine ⟨Along.of_inv (I := fun h => Normal h.blocks) (fun h op hn hs => (correct_of_safe hn hs).normal)
    (fun h op hn hs => correct_of_safe hn hs) normal_empty hs, ?_⟩
  exact image_run normal_empty hs

/-- Two bytes, none of which is deleted, are two blocks afterwards. -/
theorem no_bytes_split_a_block : ¬∀ ops : List Op, Along HexFile.act Correct .empty ops := by
  intro h
  have hn := (h [.add 16 [1, 2], .delete 17 0]).2.1.normal.inOrder
  exact absurd (List.pairwise_cons.mp hn).1 (by decide)

/-- The run of the counterexample with one byte to delete, a gap filled, and a second file merged. -/
theorem partial_map_along_gap :
    (([.add 16 [1, 2, 3], .delete 17 1, .fill none none ⟨.bytes, [255]⟩,
        .merge { HexFile.empty with blocks := [⟨20, [9], .bytearray⟩] }] : List Op).foldl HexFile.act .empty).image =
      ([.add 16 [1, 2, 3], .delete 17 1, .fill none none ⟨.bytes, [255]⟩,
        .merge { HexFile.empty with blocks := [⟨20, [9], .bytearray⟩] }] : List Op).foldl Op.apply fun _ => none :=
  (partial_map_along (by decide)).2

end Qcc730.Hex
