import Qcc730.Upgrade.Partition

/-! The bounds checks of the partition functions, against what they are for: a request of `n` bytes at
    `offset` is to pass when it lies in the partition over the integers, and then only addresses of the
    partition are touched.

    The checks add in 32 bits. Reads and writes compare `start + offset + n` with `start + size`, erases
    compare `offset + n` with `size`; either sum can wrap and come out small, and so can the address that
    is handed to the driver. For each check the requests on which it is right are characterised exactly. -/

namespace Qcc730.Upgrade
open Lib Flash

/-- What every open handle satisfies: 32-bit fields, and whole blocks unless it is the SBL's. -/
structure Client.WellFormed (c : Client) : Prop where
  start_lt : c.imgStart < 2 ^ 32
  size_lt : c.imgSize < 2 ^ 32
  aligned : c.imgId ≠ sblImgId → c.imgStart % 4096 = 0 ∧ c.imgSize % 4096 = 0

theorem u32_block_mod (x : ℕ) : u32 (x * 4096) % 4096 = 0 := by
  rw [u32]
  omega

/-- A handle on a stored entry. -/
theorem clientOf_wellFormed (f i : ℕ) {e : ImageEntry} (hs : e.startBlock < 2 ^ 32)
    (ht : e.totalBlocks < 2 ^ 32) : (clientOf f i e).WellFormed := by
  by_cases hid : e.imageId = sblImgId
  · refine ⟨?_, ?_, fun h => absurd hid h⟩
    · simpa only [clientOf, hid, ne_eq, not_true_eq_false, if_false] using hs
    · simpa only [clientOf, hid, ne_eq, not_true_eq_false, if_false] using ht
  · refine ⟨?_, ?_, fun _ => ?_⟩
    · simpa only [clientOf, ne_eq, hid, not_false_eq_true, if_true] using u32_lt _
    · simpa only [clientOf, ne_eq, hid, not_false_eq_true, if_true] using u32_lt _
    · simpa only [clientOf, ne_eq, hid, not_false_eq_true, if_true] using
        And.intro (u32_block_mod _) (u32_block_mod _)

/-- The entries of a FWD in flash are 32-bit words. -/
theorem decode_entry_lt {m : Memory} {b : ℕ} {e : ImageEntry} (h : e ∈ (Fwd.decode m b).imageEntries) :
    e.startBlock < 2 ^ 32 ∧ e.totalBlocks < 2 ^ 32 := by
  obtain ⟨i, -, rfl⟩ := List.mem_map.mp h
  exact ⟨Memory.word_lt _ _, Memory.word_lt _ _⟩

theorem findPartition_wellFormed {f id h : ℕ} {s s' : Fu} (hf : fwUpgradeFindPartition f id s = (.ok h, s')) :
    s'.Live h ∧ (s'.handles h).WellFormed := by
  rcases findPartition_cases f id s with ⟨e, he⟩ | ⟨k, i, e, -, hc, -, hfind, heq⟩
  · rw [he] at hf
    cases hf
  · rw [heq] at hf
    cases hf
    obtain ⟨hk, -⟩ := Fu.clientEntry?_free hc
    obtain ⟨-, hmem⟩ := findEntry_id hfind
    obtain ⟨hs, ht⟩ := decode_entry_lt (List.mem_of_getElem? hmem)
    refine ⟨Fu.setHandle_live hk Nat.one_pos, ?_⟩
    rw [Fu.setHandle_same]
    exact clientOf_wellFormed f i hs ht

theorem createPartition_wellFormed {f id version start size h : ℕ} {s s' : Fu} (hs : start < 2 ^ 32)
    (hz : size < 2 ^ 32) (hc : fwUpgradeCreatePartition f id version start size s = (.ok h, s')) :
    s'.Live h ∧ (s'.handles h).WellFormed := by
  rcases createPartition_cases f id version start size s with ⟨e, he⟩ | ⟨k, -, hal, hk, -, -, heq⟩
  · rw [he] at hc
    cases hc
  · rw [heq] at hc
    cases hc
    refine ⟨Fu.setHandle_live (Fu.clientEntry?_free hk).1 Nat.one_pos, ?_⟩
    rw [Fu.setHandle_same]
    exact ⟨hs, hz, hal⟩

theorem firstPartition_wellFormed {f h : ℕ} {s s' : Fu} (hf : fwUpgradeFirstPartition f s = (.ok h, s')) :
    s'.Live h ∧ (s'.handles h).WellFormed := by
  rw [fwUpgradeFirstPartition] at hf
  repeat' split at hf
  all_goals cases hf
  rename_i fwd hr _ _ e he hc
  obtain ⟨-, rfl⟩ := Fu.readFwd_eq hr
  obtain ⟨hs, ht⟩ := decode_entry_lt (List.mem_of_getElem? he)
  refine ⟨Fu.setHandle_live (Fu.clientEntry?_free hc).1 Nat.one_pos, ?_⟩
  rw [Fu.setHandle_same]
  exact clientOf_wellFormed _ _ hs ht

theorem nextPartition_wellFormed {curr h : ℕ} {s s' : Fu} (hf : fwUpgradeNextPartition curr s = (.ok h, s')) :
    s'.Live h ∧ (s'.handles h).WellFormed := by
  rw [fwUpgradeNextPartition] at hf
  simp only at hf
  repeat' split at hf
  all_goals cases hf
  rename_i fwd hr _ e he _ hc
  obtain ⟨-, rfl⟩ := Fu.readFwd_eq hr
  obtain ⟨hs, ht⟩ := decode_entry_lt (List.mem_of_getElem? he)
  refine ⟨Fu.setHandle_live (Fu.clientEntry?_free hc).1 Nat.one_pos, ?_⟩
  rw [Fu.setHandle_same]
  exact clientOf_wellFormed _ _ hs ht

/-! ### The requests and their addresses -/

/-- The request lies in the partition. -/
def Client.Within (c : Client) (offset n : ℕ) : Prop := 0 < n ∧ offset + n ≤ c.imgSize

/-- The partition's addresses. -/
def Client.region (c : Client) : Range := ⟨c.imgStart, c.imgSize⟩

/-- The addresses a read or a write hands to the driver. -/
def Client.span (c : Client) (offset n : ℕ) : Range := ⟨u32 (c.imgStart + offset), n⟩

/-- The addresses an erase hands to the driver. -/
def Client.eraseSpan (c : Client) (offset n : ℕ) : Range := ⟨u32 (c.imgStart + offset) / 4096 * 4096, n / 4096 * 4096⟩

/-- A read gets past the checks exactly when it lies in the partition, and then stays in it. -/
def Fu.ReadExact (s : Fu) (hdl offset n : ℕ) : Prop :=
  ((fwUpgradeReadPartition hdl offset n s).1 ≠ .error .invalidParam ↔ (s.handles hdl).Within offset n) ∧
  ((fwUpgradeReadPartition hdl offset n s).1 ≠ .error .invalidParam →
    ((s.handles hdl).span offset n).Sub (s.handles hdl).region)

/-- The same of a write. -/
def Fu.WriteExact (s : Fu) (hdl offset : ℕ) (buf : Bytes) : Prop :=
  ((fwUpgradeWritePartition hdl offset buf s).1 ≠ .error .invalidParam ↔
    (s.handles hdl).Within offset buf.length) ∧
  ((fwUpgradeWritePartition hdl offset buf s).1 ≠ .error .invalidParam →
    ((s.handles hdl).span offset buf.length).Sub (s.handles hdl).region)

/-- The same of an erase, of whole blocks. -/
def Fu.EraseExact (s : Fu) (hdl offset n : ℕ) : Prop :=
  ((fwUpgradeErasePartition hdl offset n s).1 ≠ .error .invalidParam ↔
    (s.handles hdl).Within offset n ∧ offset % 4096 = 0 ∧ n % 4096 = 0) ∧
  ((fwUpgradeErasePartition hdl offset n s).1 ≠ .error .invalidParam →
    ((s.handles hdl).eraseSpan offset n).Sub (s.handles hdl).region)

/-- Where the check of reads and writes is right: on a request in the partition, when neither the end of
    the partition nor its own start is past 2³² (or both the ends are past it and the start is not); on a
    request that leaves the partition, when its end is still the larger one in 32 bits. -/
def Client.SumsOrdered (c : Client) (offset n : ℕ) : Prop :=
  n = 0 ∨
  (offset + n ≤ c.imgSize ∧ (c.imgStart + c.imgSize < 2 ^ 32 ∨
    c.imgStart + offset < 2 ^ 32 ∧ 2 ^ 32 ≤ c.imgStart + offset + n)) ∨
  (c.imgSize < offset + n ∧
    (c.imgStart + c.imgSize) % 2 ^ 32 < (c.imgStart + offset + n) % 2 ^ 32)

/-- Where the check of erases is right: on a request in the partition whose start is below 2³², and on one
    that leaves the partition whose end is past the partition in 32 bits too. -/
def Client.EraseOrdered (c : Client) (offset n : ℕ) : Prop :=
  n = 0 ∨ n % 4096 ≠ 0 ∨ offset % 4096 ≠ 0 ∨
  (offset + n ≤ c.imgSize ∧ c.imgStart + offset < 2 ^ 32) ∨
  (c.imgSize < offset + n ∧ c.imgSize < (offset + n) % 2 ^ 32)

/-! ### What gets past the checks -/

theorem u32_u32_add (a b : ℕ) : u32 (u32 a + b) = (a + b) % 2 ^ 32 := by
  rw [u32, u32, Nat.mod_add_mod]

theorem read_passes_iff {s : Fu} {hdl offset n : ℕ} :
    (fwUpgradeReadPartition hdl offset n s).1 ≠ .error .invalidParam ↔ s.MemParametersOk hdl offset n := by
  rw [fwUpgradeReadPartition]
  by_cases h : s.MemParametersOk hdl offset n
  · rw [if_neg (not_not.mpr h)]
    refine iff_of_true ?_ h
    simp only
    split
    · exact fun he => by cases he
    · exact fun he => by cases he
  · rw [if_pos h]
    exact iff_of_false (fun he => he rfl) h

theorem write_passes_iff {s : Fu} {hdl offset : ℕ} {buf : Bytes} :
    (fwUpgradeWritePartition hdl offset buf s).1 ≠ .error .invalidParam ↔
      s.MemParametersOk hdl offset buf.length := by
  rw [fwUpgradeWritePartition]
  by_cases h : s.MemParametersOk hdl offset buf.length
  · rw [if_neg (not_not.mpr h)]
    refine iff_of_true ?_ h
    simp only
    split
    · exact fun he => by cases he
    · exact fun he => by cases he
  · rw [if_pos h]
    exact iff_of_false (fun he => he rfl) h

theorem erase_passes_iff {s : Fu} {hdl offset n : ℕ} (hl : s.Live hdl) (hid : (s.handles hdl).imgId ≠ sblImgId) :
    (fwUpgradeErasePartition hdl offset n s).1 ≠ .error .invalidParam ↔
      n ≠ 0 ∧ n % 4096 = 0 ∧ offset % 4096 = 0 ∧ (offset + n) % 2 ^ 32 ≤ (s.handles hdl).imgSize := by
  rw [fwUpgradeErasePartition, if_neg (not_not.mpr hl), if_neg hid]
  by_cases hal : n = 0 ∨ n % 4096 ≠ 0 ∨ offset % 4096 ≠ 0
  · rw [if_pos hal]
    exact iff_of_false (fun he => he rfl) (by omega)
  · rw [if_neg hal]
    by_cases hz : (s.handles hdl).imgSize < u32 (offset + n)
    · rw [if_pos hz]
      rw [u32] at hz
      exact iff_of_false (fun he => he rfl) (by omega)
    · rw [if_neg hz]
      rw [u32] at hz
      refine iff_of_true ?_ (by omega)
      split
      · exact fun he => by cases he
      · exact fun he => by cases he

theorem Client.span_sub_iff {c : Client} {offset n : ℕ} (hn : 0 < n) :
    (c.span offset n).Sub c.region ↔
      c.imgStart ≤ u32 (c.imgStart + offset) ∧ u32 (c.imgStart + offset) + n ≤ c.imgStart + c.imgSize := by
  constructor
  · intro h
    have h₁ := h (u32 (c.imgStart + offset)) ⟨le_refl _, Nat.lt_add_of_pos_right hn⟩
    have h₂ := h (u32 (c.imgStart + offset) + (n - 1)) ⟨Nat.le_add_right _ _, by simp only [span]; omega⟩
    simp only [region, Range.mem_mk] at h₁ h₂
    omega
  · rintro ⟨h₁, h₂⟩
    exact Range.sub_of_le h₁ h₂

/-- The check of reads and writes, as arithmetic. -/
theorem Client.sums_exact_iff {c : Client} (hc : c.WellFormed) {offset n : ℕ} (ho : offset < 2 ^ 32) :
    ((n ≠ 0 ∧ (c.imgStart + offset + n) % 2 ^ 32 ≤ (c.imgStart + c.imgSize) % 2 ^ 32) ↔
        c.Within offset n) ∧
      ((n ≠ 0 ∧ (c.imgStart + offset + n) % 2 ^ 32 ≤ (c.imgStart + c.imgSize) % 2 ^ 32) →
        (c.span offset n).Sub c.region) ↔ c.SumsOrdered offset n := by
  have hs := hc.start_lt
  have hz := hc.size_lt
  rcases Nat.eq_zero_or_pos n with rfl | hn
  · simp [Within, SumsOrdered]
  · rw [span_sub_iff hn, Within, SumsOrdered, u32]
    generalize c.imgStart = a at *
    generalize c.imgSize = z at *
    omega

/-- The check of erases, as arithmetic. -/
theorem Client.erase_exact_iff {c : Client} (hc : c.WellFormed) (hid : c.imgId ≠ sblImgId) {offset n : ℕ}
    (ho : offset < 2 ^ 32) (hn : n < 2 ^ 32) :
    ((n ≠ 0 ∧ n % 4096 = 0 ∧ offset % 4096 = 0 ∧ (offset + n) % 2 ^ 32 ≤ c.imgSize) ↔
        c.Within offset n ∧ offset % 4096 = 0 ∧ n % 4096 = 0) ∧
      ((n ≠ 0 ∧ n % 4096 = 0 ∧ offset % 4096 = 0 ∧ (offset + n) % 2 ^ 32 ≤ c.imgSize) →
        (c.eraseSpan offset n).Sub c.region) ↔ c.EraseOrdered offset n := by
  have hs := hc.start_lt
  have hz := hc.size_lt
  obtain ⟨hs4, -⟩ := hc.aligned hid
  by_cases hal : n ≠ 0 ∧ n % 4096 = 0 ∧ offset % 4096 = 0
  · obtain ⟨h0, hn4, ho4⟩ := hal
    -- whole blocks: the erased span is the one of a write
    have hspan : c.eraseSpan offset n = c.span offset n := by
      have hu : u32 (c.imgStart + offset) / 4096 * 4096 = u32 (c.imgStart + offset) := by
        rw [u32]
        omega
      rw [eraseSpan, span, hu, Nat.div_mul_cancel (Nat.dvd_of_mod_eq_zero hn4)]
    rw [hspan, span_sub_iff (Nat.pos_of_ne_zero h0), Within, EraseOrdered, u32]
    generalize c.imgStart = a at *
    generalize c.imgSize = z at *
    omega
  · rw [Within, EraseOrdered]
    constructor
    · intro _
      omega
    · intro _
      exact ⟨by omega, fun h => absurd ⟨h.1, h.2.1, h.2.2.1⟩ hal⟩

/-- On an open handle the check of each function is right on exactly the requests whose sums keep their
    order in 32 bits. -/
theorem partition_bounds_exact_iff (s : Fu) (hdl : ℕ) (hl : s.Live hdl) (hc : (s.handles hdl).WellFormed)
    (offset n : ℕ) (buf : Bytes) (ho : offset < 2 ^ 32) (hn : n < 2 ^ 32) :
    (s.ReadExact hdl offset n ↔ (s.handles hdl).SumsOrdered offset n) ∧
    (s.WriteExact hdl offset buf ↔ (s.handles hdl).SumsOrdered offset buf.length) ∧
    ((s.handles hdl).imgId ≠ sblImgId → (s.EraseExact hdl offset n ↔ (s.handles hdl).EraseOrdered offset n)) := by
  have hok : ∀ k, s.MemParametersOk hdl offset k ↔ k ≠ 0 ∧
      ((s.handles hdl).imgStart + offset + k) % 2 ^ 32 ≤
        ((s.handles hdl).imgStart + (s.handles hdl).imgSize) % 2 ^ 32 := by
    intro k
    rw [Fu.MemParametersOk, u32_u32_add, u32]
    exact ⟨fun h => ⟨h.1, h.2.2⟩, fun h => ⟨h.1, hl, h.2⟩⟩
  refine ⟨?_, ?_, fun hid => ?_⟩
  · rw [Fu.ReadExact, read_passes_iff, hok]
    exact Client.sums_exact_iff hc ho
  · rw [Fu.WriteExact, write_passes_iff, hok]
    exact Client.sums_exact_iff hc ho
  · rw [Fu.EraseExact, erase_passes_iff hl hid]
    exact Client.erase_exact_iff hc hid ho hn

/-- One open handle: a partition of two blocks at `0x8000` on a chip of 1024 blocks. -/
def oneHandle : Fu where
  dev := ⟨⟨fun _ => 0, fun _ => 0, ⟨0, 0, fun _ => .zero⟩⟩, [], 1024, fun _ _ => false⟩
  handles := fun i => if i = 0 then ⟨1, 1, 0, 5, 1, 0x8000, 0x2000⟩ else ⟨0, 0, 0, 0, 0, 0, 0⟩

theorem oneHandle_wellFormed : (oneHandle.handles 0).WellFormed := ⟨by decide, by decide, fun _ => by decide⟩

/-- The second block of the partition can be read, written and erased; a third one cannot. -/
theorem partition_bounds_exact_two :
    oneHandle.ReadExact 0 4096 4096 ∧ oneHandle.WriteExact 0 8192 [1] ∧ oneHandle.EraseExact 0 4096 4096 := by
  obtain ⟨hr, -, he⟩ := partition_bounds_exact_iff oneHandle 0 (by decide) oneHandle_wellFormed 4096 4096 []
    (by decide) (by decide)
  obtain ⟨-, hw, -⟩ := partition_bounds_exact_iff oneHandle 0 (by decide) oneHandle_wellFormed 8192 0 [1]
    (by decide) (by decide)
  refine ⟨hr.mpr ?_, hw.mpr ?_, (he (by decide)).mpr ?_⟩
  · exact .inr (.inl ⟨by decide, .inl (by decide)⟩)
  · exact .inr (.inr ⟨by decide, by decide⟩)
  · exact .inr (.inr (.inr (.inl ⟨by decide, by decide⟩)))

/-- One block at offset `0xFFFFF000`, 4 GB past the partition: the sums wrap, and the block before the
    partition is read, programmed and erased. -/
theorem block_before_partition_touched :
    (¬oneHandle.ReadExact 0 0xFFFFF000 4096 ∧ ¬oneHandle.WriteExact 0 0xFFFFF000 [1] ∧
      ¬oneHandle.EraseExact 0 0xFFFFF000 4096) ∧
    (fwUpgradeWritePartition 0 0xFFFFF000 [1] oneHandle).2.dev.log = [.program 0x7000 [1]] ∧
    (fwUpgradeErasePartition 0 0xFFFFF000 4096 oneHandle).2.dev.log = [.erase 0x7000] := by
  have hsize : (oneHandle.handles 0).imgSize = 0x2000 := rfl
  refine ⟨⟨fun h => ?_, fun h => ?_, fun h => ?_⟩, by decide, by decide⟩
  · have := (h.1.mp (by rw [read_passes_iff]; decide)).2
    omega
  · have := (h.1.mp (by rw [write_passes_iff]; decide)).2
    rw [hsize] at this
    simp at this
  · have := (h.1.mp (by rw [erase_passes_iff (by decide) (by decide)]; decide)).1.2
    omega

/-! ### What a call leaves alone -/

/-- A write changes nothing outside its span. -/
theorem writePartition_span {s : Fu} {hdl offset : ℕ} {buf : Bytes} {x : ℕ}
    (hx : x ∉ (s.handles hdl).span offset buf.length) :
    (fwUpgradeWritePartition hdl offset buf s).2.dev.mem.flash x = s.dev.mem.flash x ∧
      (fwUpgradeWritePartition hdl offset buf s).2.dev.mem.rram x = s.dev.mem.rram x := by
  rcases writePartition_cases hdl offset buf s with ⟨e, he⟩ | ⟨-, ⟨-, -, he⟩ | ⟨-, -, he⟩⟩
  · rw [he]
    exact ⟨rfl, rfl⟩
  · rw [he]
    refine ⟨Mem.replay_flash_out fun w hw hmem => ?_, Mem.replay_rram_out fun w hw hmem => ?_⟩
    · exact hx ((pages_sub _ _ _ w hw).1 x hmem)
    · rw [(pages_sub _ _ _ w hw).2.1, Range.mem_mk] at hmem
      omega
  · rw [he]
    refine ⟨Mem.replay_flash_out fun w hw hmem => ?_, Mem.replay_rram_out fun w hw hmem => ?_⟩
    · rw [List.mem_singleton.mp hw] at hmem
      exact absurd hmem.2 (Nat.not_lt_zero x)
    · rw [List.mem_singleton.mp hw] at hmem
      exact hx hmem

/-- An erase changes nothing outside its span. -/
theorem erasePartition_span {s : Fu} {hdl offset n x : ℕ} (hx : x ∉ (s.handles hdl).eraseSpan offset n) :
    (fwUpgradeErasePartition hdl offset n s).2.dev.mem.flash x = s.dev.mem.flash x := by
  rcases erasePartition_cases hdl offset n s with ⟨r, he, -⟩ | ⟨-, -, -, -, -, -, -, he⟩
  · rw [he]
  · rw [he]
    exact Mem.replay_flash_out fun w hw hmem => hx ((eraseBlocks_sub hw).1 x hmem)

end Qcc730.Upgrade
