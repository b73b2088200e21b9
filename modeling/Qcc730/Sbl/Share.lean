import Qcc730.Flash.Descriptor

/-! The table the boot loader hands to the application (`set_sbl_share` in `sbl_main.c`).

    The FDT has up to 31 entries. The record for the application has room for ten, and so has the copy the
    application makes of it at its start; the loop that fills the record goes over all entries of the FDT. -/

namespace Qcc730.Sbl
open Lib Flash

/-- `PART_SIZE` -/
@[simp] abbrev partSize : ℕ := 10

/-- `APP_ARGS_MAGIC` -/
@[simp] abbrev appArgsMagic : ℕ := 0x55aa55aa

/-- `IDAddr` -/
structure IDAddr where
  id : ℕ
  addr : ℕ
  deriving DecidableEq, Repr

/-- Where `fdt_part[i]` is, in a `boot_sbl_share` at `share`. -/
def fdtPart (share i : ℕ) : ℕ := share + 12 + 8 * i

/-- The writes of the first `n` passes of the loop in `set_sbl_share`. -/
def partWrites (share : ℕ) (fdt : Fdt) (n : ℕ) : List (ℕ × Bytes) :=
  (List.range n).flatMap fun i =>
    [(fdtPart share i, le32 (fdt.fde i).id), (fdtPart share i + 4, le32 (fdt.fde i).addr)]

/-- The writes after the loop: `magic_num`, `ver`, `img_type` and `bdf_addr`. -/
def headWrites (share imgType bdfAddr : ℕ) : List (ℕ × Bytes) :=
  [(share, le32 appArgsMagic), (share + 4, [1]), (share + 5, [UInt8.ofNat imgType]), (share + 8, le32 bdfAddr)]

/-- RAM after some writes. -/
def storeAll (ram : Memory) (ws : List (ℕ × Bytes)) : Memory := ws.foldl (fun m w => m.store w.1 w.2) ram

/-- `set_sbl_share` -/
def setSblShare (ram : Memory) (share imgType bdfAddr : ℕ) (fdt : Fdt) : Memory :=
  storeAll ram (partWrites share fdt fdt.numFde ++ headWrites share imgType bdfAddr)

/-- `fdt_part` of the application: the copy `_start` makes of the one in the record. -/
def startFdtPart (ram : Memory) (share : ℕ) : List IDAddr :=
  (List.range partSize).map fun i => ⟨ram.word (fdtPart share i), ram.word (fdtPart share i + 4)⟩

/-- The entries are written inside `fdt_part`, and the application has all of them. -/
def SharesAll (ram : Memory) (share imgType bdfAddr : ℕ) (fdt : Fdt) : Prop :=
  (∀ w ∈ partWrites share fdt fdt.numFde, fdtPart share 0 ≤ w.1 ∧ w.1 + w.2.length ≤ fdtPart share partSize) ∧
    ∀ i < fdt.numFde, (startFdtPart (setSblShare ram share imgType bdfAddr fdt) share)[i]? =
      some ⟨(fdt.fde i).id, (fdt.fde i).addr⟩

/-! ### Writes in a row -/

theorem storeAll_append (ram : Memory) (ws ws' : List (ℕ × Bytes)) :
    storeAll ram (ws ++ ws') = storeAll (storeAll ram ws) ws' := List.foldl_append

theorem storeAll_out {ws : List (ℕ × Bytes)} {x : ℕ} (h : ∀ w ∈ ws, x < w.1 ∨ w.1 + w.2.length ≤ x) (ram : Memory) :
    storeAll ram ws x = ram x := by
  induction ws generalizing ram with
  | nil => rfl
  | cons w ws ih =>
    have hrest := ih (fun v hv => h v (List.mem_cons_of_mem _ hv)) (ram.store w.1 w.2)
    rw [storeAll] at hrest ⊢
    rw [List.foldl_cons, hrest, Memory.store_out (h w List.mem_cons_self)]

theorem storeAll_word {ws : List (ℕ × Bytes)} {a : ℕ} (h : ∀ w ∈ ws, a + 4 ≤ w.1 ∨ w.1 + w.2.length ≤ a) (ram : Memory) :
    (storeAll ram ws).word a = ram.word a := by
  refine Memory.word_congr fun i hi => storeAll_out (fun w hw => ?_) ram
  have := h w hw
  omega

/-- A word that has just been stored, and the one after it. -/
theorem store_word {m : Memory} {a x : ℕ} (hx : x < 2 ^ 32) : (m.store a (le32 x)).word a = x :=
  word_of_le32 hx fun _ hi => Memory.store_in hi

theorem mem_partWrites {share n : ℕ} {fdt : Fdt} {w : ℕ × Bytes} (h : w ∈ partWrites share fdt n) :
    ∃ i < n, (w.1 = fdtPart share i ∨ w.1 = fdtPart share i + 4) ∧ w.2.length = 4 := by
  rw [partWrites, List.mem_flatMap] at h
  obtain ⟨i, hi, hw⟩ := h
  rw [List.mem_range] at hi
  simp only [List.mem_cons, List.not_mem_nil, or_false] at hw
  rcases hw with rfl | rfl
  · exact ⟨i, hi, .inl rfl, length_le32 _⟩
  · exact ⟨i, hi, .inr rfl, length_le32 _⟩

theorem partWrites_succ (share : ℕ) (fdt : Fdt) (n : ℕ) :
    partWrites share fdt (n + 1) = partWrites share fdt n ++
      [(fdtPart share n, le32 (fdt.fde n).id), (fdtPart share n + 4, le32 (fdt.fde n).addr)] := by
  rw [partWrites, List.range_succ, List.flatMap_append, partWrites]
  rfl

/-- After the loop every entry is in its place, also past the end of the array. -/
theorem partWrites_word (ram : Memory) (share : ℕ) {fdt : Fdt} {n i : ℕ}
    (h32 : ∀ i < n, (fdt.fde i).id < 2 ^ 32 ∧ (fdt.fde i).addr < 2 ^ 32) (hi : i < n) :
    (storeAll ram (partWrites share fdt n)).word (fdtPart share i) = (fdt.fde i).id ∧
      (storeAll ram (partWrites share fdt n)).word (fdtPart share i + 4) = (fdt.fde i).addr := by
  induction n with
  | zero => exact absurd hi (Nat.not_lt_zero i)
  | succ n ih =>
    rw [partWrites_succ, storeAll_append]
    set m := storeAll ram (partWrites share fdt n) with hm
    have hlen := length_le32
    rcases Nat.lt_succ_iff_lt_or_eq.mp hi with hlt | rfl
    · have hold := ih (fun j hj => h32 j (by omega)) hlt
      have hout : ∀ w ∈ [(fdtPart share n, le32 (fdt.fde n).id), (fdtPart share n + 4, le32 (fdt.fde n).addr)],
          fdtPart share i + 4 + 4 ≤ w.1 := by
        intro w hw
        simp only [List.mem_cons, List.not_mem_nil, or_false] at hw
        rcases hw with rfl | rfl <;> · simp only [fdtPart]; omega
      rw [storeAll_word fun w hw => .inl (by have := hout w hw; omega), storeAll_word fun w hw => .inl (hout w hw)]
      exact hold
    · have hb := h32 i (by omega)
      have hid : ((m.store (fdtPart share i) (le32 (fdt.fde i).id)).store (fdtPart share i + 4)
          (le32 (fdt.fde i).addr)).word (fdtPart share i) = (fdt.fde i).id := by
        rw [Memory.word_congr fun j hj => Memory.store_out (.inl (by omega)), store_word hb.1]
      exact ⟨hid, store_word hb.2⟩

/-- An FDT that passes `fdt_verify` fits exactly if it has at most ten entries. -/
theorem setSblShare_fits_iff (ram : Memory) (share imgType bdfAddr : ℕ) (fdt : Fdt) (hv : fdt.Valid)
    (h32 : ∀ i < fdt.numFde, (fdt.fde i).id < 2 ^ 32 ∧ (fdt.fde i).addr < 2 ^ 32) :
    SharesAll ram share imgType bdfAddr fdt ↔ fdt.numFde ≤ partSize := by
  constructor
  · rintro ⟨-, hseen⟩
    have hpos := Nat.pos_of_ne_zero hv.2.1
    have hlast := hseen (fdt.numFde - 1) (by omega)
    have hlt := (List.getElem?_eq_some_iff.mp hlast).1
    rw [startFdtPart, List.length_map, List.length_range] at hlt
    have hlt : fdt.numFde - 1 < 10 := hlt
    show fdt.numFde ≤ 10
    omega
  · intro hle
    have hle : fdt.numFde ≤ 10 := hle
    constructor
    · intro w hw
      obtain ⟨i, hi, hat, hlen⟩ := mem_partWrites hw
      rw [hlen]
      rcases hat with hat | hat <;> · rw [hat]; simp only [fdtPart, partSize]; omega
    · intro i hi
      -- the header of the record lies before the table
      have hhead : ∀ w ∈ headWrites share imgType bdfAddr, w.1 + w.2.length ≤ fdtPart share i := by
        intro w hw
        simp only [headWrites, List.mem_cons, List.not_mem_nil, or_false] at hw
        rcases hw with rfl | rfl | rfl | rfl <;>
          · simp only [length_le32, List.length_cons, List.length_nil, fdtPart]
            omega
      obtain ⟨hid, haddr⟩ := partWrites_word ram share h32 hi
      have hi10 : i < partSize := lt_of_lt_of_le hi hle
      rw [startFdtPart, List.getElem?_map, List.getElem?_range hi10, Option.map_some, setSblShare, storeAll_append,
        storeAll_word fun w hw => .inr (hhead w hw), hid,
        storeAll_word fun w hw => .inr (by have := hhead w hw; omega), haddr]

/-- An FDT with SBL and application entries. -/
def fdtOf (n : ℕ) : Fdt := ⟨fdtSignature, n, fun i => ⟨i, 0, 0, 0x20A400 + i, 1, 0, 0, 0⟩⟩

/-- Three entries are handed over. -/
theorem setSblShare_fits_three : SharesAll (fun _ => 0) 0x88000 0 0x37A000 (fdtOf 3) := by
  refine (setSblShare_fits_iff (fun _ => 0) 0x88000 0 0x37A000 (fdtOf 3) (by decide) fun i hi => ?_).mpr (by decide)
  have hi : i < 3 := hi
  show i < 2 ^ 32 ∧ 0x20A400 + i < 2 ^ 32
  omega

/-- Eleven entries pass `fdt_verify`, and the last one is written after the array. -/
theorem setSblShare_past_end :
    (fdtOf 11).Valid ∧ ¬SharesAll (fun _ => 0) 0x88000 0 0x37A000 (fdtOf 11) := by
  refine ⟨by decide, fun h => ?_⟩
  have hlast : (fdtPart 0x88000 10, le32 10) ∈ partWrites 0x88000 (fdtOf 11) 11 := by decide
  exact absurd (h.1 _ hlast).2 (by decide)

end Qcc730.Sbl
