import Mathlib.Data.List.GetD
import Qcc730.Upgrade.PowerLoss

/-! The trial FWD as a session builds it.

    Erasing the block leaves thirty blank entries. Each partition that is created takes the first of them, so
    at any time the table is a list of entries in the order they were created, and blank from there on. That
    needs entries that can be told from blank ones: an image whose id is that of an unused entry is programmed
    over. -/

namespace Qcc730.Upgrade
open Lib Flash Sbl

/-- An erased entry. -/
def blankEntry : ImageEntry := ⟨0xFFFFFFFF, 0xFFFFFFFF, 0xFFFFFFFF, 0xFFFFFFFF⟩

/-- An entry as it is read back: its fields are 32-bit words. -/
def truncEntry (e : ImageEntry) : ImageEntry :=
  ⟨u32 e.imageId, u32 e.startBlock, u32 e.totalBlocks, u32 e.imgVersion⟩

theorem le32_u32 (x : ℕ) : le32 (u32 x) = le32 x := by
  have hb : ∀ y z : ℕ, y % 256 = z % 256 → UInt8.ofNat y = UInt8.ofNat z := by
    intro y z h
    apply UInt8.toNat_inj.mp
    simp only [UInt8.toNat_ofNat']
    exact h
  simp only [le32, u32]
  rw [hb (x % 2 ^ 32) x (by omega), hb (x % 2 ^ 32 / 256) (x / 256) (by omega),
    hb (x % 2 ^ 32 / 65536) (x / 65536) (by omega), hb (x % 2 ^ 32 / 16777216) (x / 16777216) (by omega)]

theorem encode_truncEntry (e : ImageEntry) : (truncEntry e).encode = e.encode := by
  simp only [ImageEntry.encode, truncEntry, le32_u32]

/-- What the header of an upgrade file gives a FWD: its signature and its number of images. -/
structure Front where
  signature : ℕ
  totalImages : ℕ

/-- The front of an erased FWD. -/
def blankFront : Front := ⟨0xFFFFFFFF, 255⟩

/-- The FWD has the front `sig` and the entries `es`, and is blank behind them. -/
structure Lists (f : Fwd) (sig : Front) (es : List ImageEntry) : Prop where
  signature : f.signature = sig.signature
  total : f.totalImages = sig.totalImages
  length : es.length ≤ maxFwImageEntries
  entries : ∀ k < maxFwImageEntries, f.imageEntries[k]? = some (es.getD k blankEntry)
  used : ∀ e ∈ es, e.imageId ≠ fwdImageUnused

section

variable {f : Fwd} {sig : Front} {es : List ImageEntry}

/-- An entry in use is one of the list. -/
theorem Lists.mem (h : Lists f sig es) {e : ImageEntry} {k : ℕ} (hl : f.imageEntries.length = maxFwImageEntries)
    (hk : f.imageEntries[k]? = some e) (he : e.imageId ≠ fwdImageUnused) : es[k]? = some e := by
  have hlt : k < maxFwImageEntries := hl ▸ (List.getElem?_eq_some_iff.mp hk).1
  have := h.entries k hlt
  rw [hk, Option.some.injEq, List.getD_eq_getElem?_getD] at this
  rcases hes : es[k]? with _ | e'
  · rw [hes, Option.getD_none] at this
    exact absurd (congrArg ImageEntry.imageId this) he
  · rw [hes, Option.getD_some] at this
    rw [this]

/-- The first free entry is the one behind the list. -/
theorem Lists.free_eq (h : Lists f sig es) (hl : f.imageEntries.length = maxFwImageEntries)
    (hlt : freeEntry f < maxFwImageEntries) : freeEntry f = es.length := by
  have hlt' : freeEntry f < f.imageEntries.length := hl ▸ hlt
  have hfree := List.findIdx_getElem (p := fun e : ImageEntry => decide (e.imageId = fwdImageUnused)) (w := hlt')
  have hbefore : ∀ k < freeEntry f, ∀ e, f.imageEntries[k]? = some e → e.imageId ≠ fwdImageUnused := by
    intro k hk e he hid
    obtain ⟨hk', rfl⟩ := List.getElem?_eq_some_iff.mp he
    exact absurd hid (by simpa using List.not_of_lt_findIdx hk)
  rcases Nat.lt_trichotomy (freeEntry f) es.length with hc | hc | hc
  · -- an entry of the list is not free
    exfalso
    have hm := h.entries _ hlt
    rw [List.getD_eq_getElem?_getD, List.getElem?_eq_getElem hc, Option.getD_some,
      List.getElem?_eq_getElem hlt', Option.some.injEq] at hm
    exact h.used _ (List.getElem_mem hc) (hm ▸ of_decide_eq_true hfree)
  · exact hc
  · -- the entry behind the list is free
    exfalso
    have hm := h.entries es.length (by omega)
    rw [List.getD_eq_getElem?_getD, List.getElem?_eq_none (Nat.le_refl _), Option.getD_none] at hm
    exact hbefore _ hc _ hm rfl

end

/-! ### Programming an entry -/

theorem decode_blank {m : Memory} {a : ℕ} (h : ImageEntry.decode m a = blankEntry) : ∀ i < 16, m (a + i) = 0xFF := by
  simp only [ImageEntry.decode, blankEntry, ImageEntry.mk.injEq] at h
  obtain ⟨h0, h1, h2, h3⟩ := h
  intro i hi
  obtain ⟨q, r, hr, rfl⟩ : ∃ q r, r < 4 ∧ i = 4 * q + r := ⟨i / 4, i % 4, by omega, by omega⟩
  have hq : q = 0 ∨ q = 1 ∨ q = 2 ∨ q = 3 := by omega
  rcases hq with rfl | rfl | rfl | rfl
  · simpa using Memory.word_ff h0 r hr
  · simpa [Nat.add_assoc] using Memory.word_ff h1 r hr
  · simpa [Nat.add_assoc] using Memory.word_ff h2 r hr
  · simpa [Nat.add_assoc] using Memory.word_ff h3 r hr

/-- A word of an entry programmed over blank bytes. -/
theorem word_program {m : Memory} {a o x : ℕ} {d : Bytes} (hx : x < 2 ^ 32) (ho : o + 4 ≤ d.length)
    (he : ∀ i < 4, m (a + (o + i)) = 0xFF) (hd : ∀ i < 4, d.getD (o + i) 0 = (le32 x).getD i 0) :
    (m.program a d).word (a + o) = x := by
  refine word_of_le32 hx fun i hi => ?_
  rw [Nat.add_assoc, Memory.program_in (by omega) (he i hi), hd i hi]

theorem decode_program {m : Memory} {a : ℕ} (e : ImageEntry) (h : ImageEntry.decode m a = blankEntry) :
    ImageEntry.decode (m.program a e.encode) a = truncEntry e := by
  have hff := decode_blank h
  rw [← encode_truncEntry]
  have hword : ∀ o x, o ≤ 12 → (∀ i < 4, (truncEntry e).encode.getD (o + i) 0 = (le32 (u32 x)).getD i 0) →
      (m.program a (truncEntry e).encode).word (a + o) = u32 x := by
    intro o x ho hd
    exact word_program (u32_lt x) (by rw [ImageEntry.length_encode]; omega) (fun i hi => hff _ (by omega)) hd
  have hd : ∀ i < 4, (truncEntry e).encode.getD (0 + i) 0 = (le32 (u32 e.imageId)).getD i 0 ∧
      (truncEntry e).encode.getD (4 + i) 0 = (le32 (u32 e.startBlock)).getD i 0 ∧
      (truncEntry e).encode.getD (8 + i) 0 = (le32 (u32 e.totalBlocks)).getD i 0 ∧
      (truncEntry e).encode.getD (12 + i) 0 = (le32 (u32 e.imgVersion)).getD i 0 := by
    intro i hi
    have hi' : i = 0 ∨ i = 1 ∨ i = 2 ∨ i = 3 := by omega
    rcases hi' with rfl | rfl | rfl | rfl <;> exact ⟨rfl, rfl, rfl, rfl⟩
  have h0 := hword 0 _ (by omega) fun i hi => (hd i hi).1
  rw [Nat.add_zero] at h0
  rw [ImageEntry.decode, h0, hword 4 _ (by omega) fun i hi => (hd i hi).2.1,
    hword 8 _ (by omega) fun i hi => (hd i hi).2.2.1, hword 12 _ (by omega) fun i hi => (hd i hi).2.2.2]
  rfl

theorem fwd_entry (m : Mem) (t : ℕ) {k : ℕ} (hk : k < maxFwImageEntries) :
    (m.fwd t).imageEntries[k]? = some (ImageEntry.decode m.flash (t * 4096 + 32 + 16 * k)) := by
  simp [Mem.fwd, Fwd.decode, hk]

theorem length_entries (m : Mem) (t : ℕ) : (m.fwd t).imageEntries.length = maxFwImageEntries := by
  simp [Mem.fwd]

/-- The table with one more entry. -/
theorem Lists.program {m : Mem} {t : ℕ} {sig : Front} {es : List ImageEntry} (h : Lists (m.fwd t) sig es) {e : ImageEntry}
    (hlt : es.length < maxFwImageEntries) (he : u32 e.imageId ≠ fwdImageUnused) :
    Lists (({ m with flash := m.flash.program (t * 4096 + 32 + es.length * 16) e.encode } : Mem).fwd t) sig
      (es ++ [truncEntry e]) := by
  have hout : ∀ x, x < t * 4096 + 32 + es.length * 16 ∨ t * 4096 + 32 + es.length * 16 + 16 ≤ x →
      m.flash.program (t * 4096 + 32 + es.length * 16) e.encode x = m.flash x :=
    fun x hx => Memory.program_out (by rw [ImageEntry.length_encode]; exact hx)
  refine ⟨?_, ?_, ?_, ?_, ?_⟩
  · rw [← h.signature]
    exact Memory.word_congr fun i hi => hout _ (by omega)
  · rw [← h.total]
    exact congrArg UInt8.toNat (hout _ (by omega))
  · rw [List.length_append, List.length_singleton]
    omega
  · intro k hk
    have hold := h.entries k hk
    rw [fwd_entry m t hk, Option.some.injEq] at hold
    rw [fwd_entry _ t hk, Option.some.injEq]
    rcases Nat.lt_trichotomy k es.length with hc | rfl | hc
    · rw [List.getD_append _ _ _ _ hc, ← hold]
      exact ImageEntry.decode_congr fun i hi => hout _ (by omega)
    · rw [List.getD_append_right _ _ _ _ (Nat.le_refl _), Nat.sub_self, List.getD_cons_zero]
      rw [List.getD_eq_default _ _ (Nat.le_refl _)] at hold
      rw [Nat.mul_comm 16 es.length] at hold ⊢
      exact decode_program e hold
    · rw [List.getD_eq_default _ _ (by rw [List.length_append, List.length_singleton]; omega)]
      rw [List.getD_eq_default _ _ (by omega)] at hold
      rw [← hold]
      exact ImageEntry.decode_congr fun i hi => hout _ (by omega)
  · intro x hx
    rcases List.mem_append.mp hx with hx | hx
    · exact h.used x hx
    · rw [List.mem_singleton.mp hx]
      exact he

/-- An erased FWD has no entries. -/
theorem lists_erased (m : Mem) (t : ℕ) : Lists ((m.app (.erase (t * 4096))).fwd t) blankFront [] := by
  have hff : ∀ i < 4096, (m.flash.erase (t * 4096) 4096) (t * 4096 + i) = 0xFF := fun i hi =>
    Memory.erase_in (by omega) (by omega)
  have hword : ∀ o, o + 4 ≤ 4096 → (m.flash.erase (t * 4096) 4096).word (t * 4096 + o) = 0xFFFFFFFF := by
    intro o ho
    refine word_of_le32 (by decide) fun i hi => ?_
    rw [Nat.add_assoc, hff _ (by omega)]
    have hi' : i = 0 ∨ i = 1 ∨ i = 2 ∨ i = 3 := by omega
    rcases hi' with rfl | rfl | rfl | rfl <;> rfl
  have h0 := hword 0 (by omega)
  rw [Nat.add_zero] at h0
  refine ⟨h0, congrArg UInt8.toNat (hff 13 (by omega)), Nat.zero_le _, fun k hk => ?_, by simp⟩
  simp only [maxFwImageEntries] at hk
  rw [fwd_entry _ t hk, List.getD_nil, Option.some.injEq]
  simp only [ImageEntry.decode, Mem.app, Nat.add_assoc]
  rw [hword _ (by omega), hword _ (by omega), hword _ (by omega), hword _ (by omega)]
  rfl

/-- Equal bytes of the FWD. -/
theorem Lists.congr {m m' : Mem} {t : ℕ} {sig : Front} {es : List ImageEntry} (h : Lists (m.fwd t) sig es)
    (hm : ∀ x ∈ (⟨t * 4096, 512⟩ : Range), m'.flash x = m.flash x) : Lists (m'.fwd t) sig es := by
  rw [Mem.fwd_congr hm]
  exact h

end Qcc730.Upgrade
