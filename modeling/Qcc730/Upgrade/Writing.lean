import Qcc730.Upgrade.Entries

/-! What erases and writes leave in the partitions.

    The invariant of a session bounds where it writes; here is what it writes. An image is written piece by
    piece behind what is there already, and the block that a piece enters is erased before. So as long as the
    commands succeed, the partition starts with the bytes received so far and is blank up to the end of the
    block. Only commands that return without an error matter for this. -/

namespace Qcc730.Upgrade
open Lib Flash Sbl

/-! ### Erasing and writing in the open partition -/

/-- The image of a partition and where it lies. -/
structure Spot where
  imgId : ℕ
  imgStart : ℕ
  imgSize : ℕ
  deriving DecidableEq, Repr

abbrev Client.place (c : Client) : Spot := ⟨c.imgId, c.imgStart, c.imgSize⟩

/-- The memory after a successful erase in a partition. -/
def eraseIn (c : Spot) (offset nbytes : ℕ) (m : Mem) : Mem :=
  if c.imgId = sblImgId then m else { m with flash := m.flash.erase (c.imgStart + offset) nbytes }

/-- The memory after a successful write to a partition. -/
def writeIn (c : Spot) (offset : ℕ) (b : Bytes) (m : Mem) : Mem :=
  if c.imgId = sblImgId then { m with rram := m.rram.store (c.imgStart + offset) b }
  else { m with flash := m.flash.program (c.imgStart + offset) b }

section

variable {env : Env} {fu₀ : Fu} {A : Area} {s s' : Session} {k : ℕ}

theorem fuErase_ok (hs : A.Sane) {fu fu' : Fu} (hc : A.Holds (fu.handles k)) {offset nbytes : ℕ}
    (hsum : (fu.handles k).imgId ≠ sblImgId → offset + nbytes < 2 ^ 32)
    (h : fwUpgradeErasePartition k offset nbytes fu = (.ok (), fu')) :
    fu'.handles = fu.handles ∧ fu'.dev.mem = eraseIn (fu.handles k).place offset nbytes fu.dev.mem ∧
      ((fu.handles k).imgId ≠ sblImgId → offset + nbytes ≤ (fu.handles k).imgSize) := by
  rcases erasePartition_cases k offset nbytes fu with ⟨r, heq, hr⟩ | ⟨-, hid, hn, hm, ho, hle, -, heq⟩
  · rw [heq] at h
    cases h
    have hid := (hr rfl).2
    exact ⟨rfl, by rw [eraseIn, if_pos hid], fun hne => absurd hid hne⟩
  · rw [heq] at h
    cases h
    obtain ⟨hal, q, hq, hlo, hhi⟩ := hc.flash hid
    have hq' := hs.data_lt q hq
    have hlt := hsum hid
    have hsz : offset + nbytes ≤ (fu.handles k).imgSize := by
      rw [u32_of_lt hlt] at hle
      exact hle
    refine ⟨rfl, ?_, fun _ => hsz⟩
    show replay Mem.app fu.dev.mem (eraseBlocks (u32 ((fu.handles k).imgStart + offset) / 4096) (nbytes / 4096)) = _
    rw [replay_eraseBlocks, eraseIn, if_neg hid, u32_of_lt (by omega)]
    have h₁ : ((fu.handles k).imgStart + offset) / 4096 * 4096 = (fu.handles k).imgStart + offset := by omega
    have h₂ : nbytes / 4096 * 4096 = nbytes := Nat.div_mul_cancel (Nat.dvd_of_mod_eq_zero hm)
    rw [h₁, h₂]

theorem fuWrite_ok (hs : A.Sane) {fu fu' : Fu} (hc : A.Holds (fu.handles k)) {offset : ℕ} {b : Bytes}
    (ho : offset ≤ (fu.handles k).imgSize) (hb : b.length ≤ 4096)
    (hsbl : (fu.handles k).imgId = sblImgId → offset + b.length ≤ (fu.handles k).imgSize)
    (h : fwUpgradeWritePartition k offset b fu = (.ok (), fu')) :
    fu'.handles = fu.handles ∧ fu'.dev.mem = writeIn (fu.handles k).place offset b fu.dev.mem ∧
      offset + b.length ≤ (fu.handles k).imgSize := by
  obtain ⟨r, ws, heq, -, hle⟩ := fuWrite_later hs hc ho hb hsbl
  rcases writePartition_cases k offset b fu with ⟨e, heq'⟩ | ⟨hok, ⟨hid, hin, heq'⟩ | ⟨hid, hin, heq'⟩⟩
  · rw [heq'] at h
    cases h
  · rw [heq'] at h heq
    cases h
    obtain ⟨-, q, hq, hlo, hhi⟩ := hc.flash hid
    have hq' := hs.data_lt q hq
    refine ⟨rfl, ?_, hle (congrArg Prod.fst heq).symm⟩
    rw [writeIn, if_neg hid, Fu.writes_dev, Dev.writes_mem, replay_pages _ _ _ _ (Nat.le_refl _), u32_of_lt (by omega)]
  · rw [heq'] at h heq
    cases h
    obtain ⟨hst, hsz⟩ := hc.sbl hid
    have hS := hs.sbl_le
    have hb0 : b.length ≠ 0 := hok.1
    have hle' := hsbl hid
    refine ⟨rfl, ?_, hle'⟩
    rw [writeIn, if_pos hid, Fu.writes_dev, Dev.writes_mem, replay_cons, replay_nil, u32_of_lt (by omega)]
    rfl

theorem erase_ok (hs : A.Sane) (hp : s.cxt.partitionHdl = some k) (hc : A.Holds (s.fu.handles k)) {offset nbytes : ℕ}
    (hsum : (s.fu.handles k).imgId ≠ sblImgId → offset + nbytes < 2 ^ 32)
    (h : erasePartition offset nbytes s = (.ok (), s')) :
    ∃ fu', s' = { s with fu := fu' } ∧ fu'.handles = s.fu.handles ∧
      fu'.dev.mem = eraseIn (s.fu.handles k).place offset nbytes s.fu.dev.mem ∧
      ((s.fu.handles k).imgId ≠ sblImgId → offset + nbytes ≤ (s.fu.handles k).imgSize) := by
  rw [erasePartition, Cmd.bind_ok (Cmd.gets_apply _ _), hp] at h
  simp only [Cmd.orFail, onFu, Cmd.zoom] at h
  rcases heq : fwUpgradeErasePartition k offset nbytes s.fu with ⟨e | u, fu'⟩
  · rw [heq] at h
    cases h
  · rw [heq] at h
    cases h
    exact ⟨fu', rfl, fuErase_ok hs hc hsum heq⟩

theorem write_ok (hs : A.Sane) (hp : s.cxt.partitionHdl = some k) (hc : A.Holds (s.fu.handles k)) {offset : ℕ}
    {b : Bytes} (ho : offset ≤ (s.fu.handles k).imgSize) (hb : b.length ≤ 4096)
    (hsbl : (s.fu.handles k).imgId = sblImgId → offset + b.length ≤ (s.fu.handles k).imgSize)
    (h : writePartition offset b s = (.ok (), s')) :
    ∃ fu', s' = { s with fu := fu' } ∧ fu'.handles = s.fu.handles ∧
      fu'.dev.mem = writeIn (s.fu.handles k).place offset b s.fu.dev.mem ∧
      offset + b.length ≤ (s.fu.handles k).imgSize := by
  rw [writePartition, Cmd.bind_ok (Cmd.gets_apply _ _), hp] at h
  simp only [Cmd.orFail, onFu, Cmd.zoom] at h
  rcases heq : fwUpgradeWritePartition k offset b s.fu with ⟨e | u, fu'⟩
  · rw [heq] at h
    cases h
  · rw [heq] at h
    cases h
    exact ⟨fu', rfl, fuWrite_ok hs hc ho hb hsbl heq⟩

end

/-- Only the partition of a handle has changed. -/
structure OnlyIn (c : Spot) (m m' : Mem) : Prop where
  fdt : m'.fdt = m.fdt
  flash : ∀ x, c.imgId = sblImgId ∨ x ∉ (⟨c.imgStart, c.imgSize⟩ : Range) → m'.flash x = m.flash x
  rram : ∀ x, c.imgId ≠ sblImgId ∨ x ∉ (⟨c.imgStart, c.imgSize⟩ : Range) → m'.rram x = m.rram x

theorem OnlyIn.refl (c : Spot) (m : Mem) : OnlyIn c m m := ⟨rfl, fun _ _ => rfl, fun _ _ => rfl⟩

theorem OnlyIn.trans {c : Spot} {m₁ m₂ m₃ : Mem} (h : OnlyIn c m₁ m₂) (h' : OnlyIn c m₂ m₃) : OnlyIn c m₁ m₃ :=
  ⟨h'.fdt.trans h.fdt, fun x hx => (h'.flash x hx).trans (h.flash x hx),
    fun x hx => (h'.rram x hx).trans (h.rram x hx)⟩

theorem eraseIn_onlyIn {c : Spot} {o n : ℕ} (m : Mem) (h : c.imgId ≠ sblImgId → o + n ≤ c.imgSize) :
    OnlyIn c m (eraseIn c o n m) := by
  rw [eraseIn]
  split
  · exact .refl c m
  · rename_i hid
    refine ⟨rfl, fun x hx => Memory.erase_out ?_, fun _ _ => rfl⟩
    have hle := h hid
    rcases hx with hx | hx
    · exact absurd hx hid
    · rw [Range.mem_mk] at hx
      omega

theorem writeIn_onlyIn {c : Spot} {o : ℕ} {b : Bytes} (m : Mem) (h : o + b.length ≤ c.imgSize) :
    OnlyIn c m (writeIn c o b m) := by
  rw [writeIn]
  split
  · rename_i hid
    refine ⟨rfl, fun _ _ => rfl, fun x hx => Memory.store_out ?_⟩
    rcases hx with hx | hx
    · exact absurd hid hx
    · rw [Range.mem_mk] at hx
      omega
  · rename_i hid
    refine ⟨rfl, fun x hx => Memory.program_out ?_, fun _ _ => rfl⟩
    rcases hx with hx | hx
    · exact absurd hx hid
    · rw [Range.mem_mk] at hx
      omega

/-- A partition of the area lies behind the FWD blocks. -/
theorem Area.Holds.off {A : Area} {c : Client} (h : A.Holds c) (ho : A.OffFwds) (hid : c.imgId ≠ sblImgId) :
    c.imgSize = 0 ∨ fwUpgradeMaxFwd * 4096 ≤ c.imgStart := by
  obtain ⟨-, q, hq, hlo, hhi⟩ := h.flash hid
  rcases ho q hq with hz | hz
  · left
    omega
  · right
    omega

/-- A change of such a partition leaves the FWDs alone. -/
theorem OnlyIn.low {c : Spot} {m m' : Mem} (h : OnlyIn c m m')
    (hc : c.imgId ≠ sblImgId → c.imgSize = 0 ∨ fwUpgradeMaxFwd * 4096 ≤ c.imgStart) {x : ℕ}
    (hx : x < fwUpgradeMaxFwd * 4096) : m'.flash x = m.flash x := by
  apply h.flash
  by_cases hid : c.imgId = sblImgId
  · exact .inl hid
  · right
    rw [Range.mem_mk]
    rcases hc hid with hz | hz <;> omega

theorem Lists.low {m m' : Mem} {t : ℕ} {sig : Front} {es : List ImageEntry} (h : Lists (m.fwd t) sig es) (ht : t < fwUpgradeMaxFwd)
    (hm : ∀ x < fwUpgradeMaxFwd * 4096, m'.flash x = m.flash x) : Lists (m'.fwd t) sig es := by
  refine h.congr fun x hx => hm x ?_
  rw [Range.mem_mk] at hx
  simp only [fwUpgradeMaxFwd] at ht ⊢
  omega

/-- The memory that a partition lies in. -/
def Spot.side (c : Spot) (m : Mem) : Memory := if c.imgId = sblImgId then m.rram else m.flash

/-- The partition starts with the bytes `b`. -/
def Written (m : Mem) (c : Spot) (b : Bytes) : Prop := (c.side m).read c.imgStart b.length = b

/-- The bytes `lo` to `hi` of a partition in flash are blank. -/
def Blank (m : Mem) (c : Spot) (lo hi : ℕ) : Prop :=
  c.imgId ≠ sblImgId → ∀ x, c.imgStart + lo ≤ x → x < c.imgStart + hi → m.flash x = 0xFF

theorem Blank.eraseIn {m : Mem} {c : Spot} {lo mid hi : ℕ} (h : Blank m c lo mid) (o n : ℕ) (ho : o ≤ mid)
    (hhi : hi ≤ o + n ∨ hi ≤ mid) : Blank (eraseIn c o n m) c lo hi := by
  intro hid x hx hx'
  rw [Upgrade.eraseIn, if_neg hid]
  by_cases hin : c.imgStart + o ≤ x ∧ x < c.imgStart + o + n
  · exact Memory.erase_in hin.1 hin.2
  · show m.flash.erase _ _ x = _
    rw [Memory.erase_out (by omega)]
    exact h hid x hx (by omega)

theorem Written.eraseIn {m : Mem} {c : Spot} {b : Bytes} (h : Written m c b) {o : ℕ} (n : ℕ) (ho : b.length ≤ o) :
    Written (eraseIn c o n m) c b := by
  rw [Written, ← h]
  simp only [Memory.length_read]
  apply Memory.read_congr
  intro i hi
  rw [Spot.side, Spot.side, Upgrade.eraseIn]
  by_cases hid : c.imgId = sblImgId
  · rw [if_pos hid, if_pos hid, if_pos hid]
  · rw [if_neg hid, if_neg hid, if_neg hid]
    exact Memory.erase_out (by omega)

/-- A piece written behind what is there already. -/
theorem Written.writeIn {m : Mem} {c : Spot} {b d : Bytes} (h : Written m c b)
    (hb : Blank m c b.length (b.length + d.length)) : Written (writeIn c b.length d m) c (b ++ d) := by
  have hside : (c.side (Upgrade.writeIn c b.length d m)).read c.imgStart b.length = b ∧
      (c.side (Upgrade.writeIn c b.length d m)).read (c.imgStart + b.length) d.length = d := by
    rw [Spot.side, Upgrade.writeIn]
    rw [Written, Spot.side] at h
    by_cases hid : c.imgId = sblImgId
    · rw [if_pos hid] at h
      rw [if_pos hid, if_pos hid]
      refine ⟨?_, Memory.read_store _ _ _⟩
      rw [← h]
      simp only [Memory.length_read]
      exact Memory.read_congr fun i hi => Memory.store_out (.inl (by omega))
    · rw [if_neg hid] at h
      rw [if_neg hid, if_neg hid]
      refine ⟨?_, Memory.read_program fun i hi => hb hid _ (by omega) (by omega)⟩
      rw [← h]
      simp only [Memory.length_read]
      exact Memory.read_congr fun i hi => Memory.program_out (.inl (by omega))
  rw [Written, List.length_append, Memory.read_add, hside.1, hside.2]

theorem Blank.writeIn {m : Mem} {c : Spot} {lo hi : ℕ} (h : Blank m c lo hi) (d : Bytes) :
    Blank (writeIn c lo d m) c (lo + d.length) hi := by
  intro hid x hx hx'
  rw [Upgrade.writeIn, if_neg hid]
  show m.flash.program _ _ x = _
  rw [Memory.program_out (by omega)]
  exact h hid x (by omega) hx'

/-- Nothing of the partition that counts is in what has changed. -/
theorem Written.congr {m m' : Mem} {c : Spot} {b : Bytes} (h : Written m c b)
    (hf : c.imgId ≠ sblImgId → ∀ x, c.imgStart ≤ x → x < c.imgStart + b.length → m'.flash x = m.flash x)
    (hr : c.imgId = sblImgId → ∀ x, c.imgStart ≤ x → x < c.imgStart + b.length → m'.rram x = m.rram x) :
    Written m' c b := by
  rw [Written, ← h]
  simp only [Memory.length_read]
  apply Memory.read_congr
  intro i hi
  rw [Spot.side, Spot.side]
  by_cases hid : c.imgId = sblImgId
  · rw [if_pos hid, if_pos hid]
    exact hr hid _ (by omega) (by omega)
  · rw [if_neg hid, if_neg hid]
    exact hf hid _ (by omega) (by omega)

section

variable {env : Env} {fu₀ : Fu} {A : Area} {s s' : Session} {k n : ℕ}

/-- A write that stays in its block. -/
theorem ahead_none {c n : ℕ} (h0 : 0 < n) (h : c / 4096 = (c + n - 1) / 4096) :
    blockCeil (c + n) ≤ (c / 4096 + 1) * 4096 := by
  rw [blockCeil]
  omega

theorem next_block {c : ℕ} (h : c % 4096 = 0) : (c / 4096 + 1) * 4096 ≤ c + 4096 := by omega

theorem in_block {c : ℕ} (h : c % 4096 ≠ 0) : (c / 4096 + 1) * 4096 ≤ blockCeil c := by
  rw [blockCeil]
  omega

/-- The erase before a write of at most half a block: what the write will enter is blank. -/
theorem eraseAhead_ok (hS : A.Sane) (ho : Opened A s k) (h0 : 0 < n) (hn : n ≤ fwUpgradeBufSize)
    (hlen : s.cxt.imageWrtCount + n ≤ s.cxt.imageWrtLength) (h : eraseAhead n s = (.ok (), s')) :
    ∃ fu', s' = { s with fu := fu' } ∧ fu'.handles = s.fu.handles ∧
      OnlyIn (s.fu.handles k).place s.fu.dev.mem fu'.dev.mem ∧
      (∀ b, b.length = s.cxt.imageWrtCount → Written s.fu.dev.mem (s.fu.handles k).place b →
        Written fu'.dev.mem (s.fu.handles k).place b) ∧
      (Blank s.fu.dev.mem (s.fu.handles k).place s.cxt.imageWrtCount ((s.cxt.imageWrtCount / 4096 + 1) * 4096) →
        Blank fu'.dev.mem (s.fu.handles k).place s.cxt.imageWrtCount (blockCeil (s.cxt.imageWrtCount + n))) := by
  rw [eraseAhead, Cmd.bind_ok (Cmd.gets_apply _ _)] at h
  have hl := ho.length
  have hend : u32 (s.cxt.imageWrtCount + n) = s.cxt.imageWrtCount + n := u32_of_lt (by omega)
  simp only [hend, fwUpgradeBufSize] at *
  by_cases hcross : s.cxt.imageWrtCount / 4096 ≠ u32sub (s.cxt.imageWrtCount + n) 1 / 4096
  · rw [if_pos hcross] at h
    rw [u32sub_of_le (by omega) (by omega)] at hcross
    rw [ahead_one h0 hn hcross, u32sub_of_le (by omega) (by omega), Nat.add_sub_add_left] at h
    have hone : u32 ((2 - 1) * 4096) = 4096 := rfl
    rw [hone] at h
    by_cases hid : (s.fu.handles k).imgId = sblImgId
    · obtain ⟨fu', rfl, hh, hm, -⟩ := erase_ok hS ho.hdl ho.holds (fun hne => absurd hid hne) h
      rw [eraseIn, if_pos hid] at hm
      refine ⟨fu', rfl, hh, hm ▸ .refl _ _, fun b _ hw => hm ▸ hw, fun _ hne => absurd hid hne⟩
    · obtain ⟨-, q, hq, hlo, hhi⟩ := ho.holds.flash hid
      have hq' := hS.data_lt q hq
      have hsz := ho.size
      have hu : u32 ((s.cxt.imageWrtCount / 4096 + 1) * 4096) = (s.cxt.imageWrtCount / 4096 + 1) * 4096 :=
        u32_of_lt (by omega)
      rw [hu] at h
      obtain ⟨fu', rfl, hh, hm, hle⟩ := erase_ok hS ho.hdl ho.holds (fun _ => by omega) h
      refine ⟨fu', rfl, hh, hm ▸ eraseIn_onlyIn _ hle, ?_, ?_⟩
      · intro b hb hw
        rw [hm]
        exact hw.eraseIn 4096 (by omega)
      · intro hb
        rw [hm]
        refine hb.eraseIn _ _ (Nat.le_refl _) (.inl ?_)
        rw [blockCeil]
        omega
  · rw [if_neg hcross] at h
    cases h
    refine ⟨s.fu, rfl, rfl, .refl _ _, fun _ _ hw => hw, fun hb hid x hx hx' => hb hid x hx ?_⟩
    rw [u32sub_of_le (by omega) (by omega), ne_eq, not_not] at hcross
    exact Nat.lt_of_lt_of_le hx' (Nat.add_le_add_left (ahead_none h0 hcross) _)

/-- A piece of the buffer is written behind the ones before it. -/
theorem writeImage_ok (hS : A.Sane) (ho : Opened A s k) (h0 : 0 < n) (hbuf : s.cxt.buffer.length ≤ fwUpgradeBufSize)
    (hn : n ≤ s.cxt.buffer.length - s.cxt.bufOffset) (hlen : s.cxt.imageWrtCount + n ≤ s.cxt.imageWrtLength)
    (h : writeImage n s = (.ok (), s')) :
    ∃ fu', s' = { s with
        fu := fu'
        cxt := { s.cxt with
          digest := s.cxt.digest ++ (s.cxt.buffer.drop s.cxt.bufOffset).take n
          bufOffset := s.cxt.bufOffset + n
          fileReadCount := u32 (s.cxt.fileReadCount + n)
          imageWrtCount := s.cxt.imageWrtCount + n } } ∧
      fu'.handles = s.fu.handles ∧ s.cxt.imageWrtCount + n ≤ (s.fu.handles k).imgSize ∧
      OnlyIn (s.fu.handles k).place s.fu.dev.mem fu'.dev.mem ∧
      (s.cxt.digest.length = s.cxt.imageWrtCount → Written s.fu.dev.mem (s.fu.handles k).place s.cxt.digest →
        Blank s.fu.dev.mem (s.fu.handles k).place s.cxt.imageWrtCount ((s.cxt.imageWrtCount / 4096 + 1) * 4096) →
        Written fu'.dev.mem (s.fu.handles k).place (s.cxt.digest ++ (s.cxt.buffer.drop s.cxt.bufOffset).take n) ∧
        Blank fu'.dev.mem (s.fu.handles k).place (s.cxt.imageWrtCount + n) (blockCeil (s.cxt.imageWrtCount + n))) := by
  set piece := (s.cxt.buffer.drop s.cxt.bufOffset).take n with hpiece
  have hpl : piece.length = n := by
    rw [hpiece, List.length_take, List.length_drop]
    omega
  have hn' : n ≤ fwUpgradeBufSize := by omega
  rw [writeImage, Cmd.bind_ok (Cmd.gets_apply _ _), Cmd.bind_ok (Cmd.modify_apply _ _)] at h
  obtain ⟨u, s₁, h₁, h⟩ := Cmd.bind_eq_ok h
  have ho₁ : Opened A (s.setCxt fun c => { c with digest := c.digest ++ piece }) k :=
    ⟨ho.hdl, ho.holds, ho.count, ho.size, ho.length, ho.sbl⟩
  obtain ⟨fu₁, rfl, hh₁, hin₁, hw₁, hb₁⟩ := eraseAhead_ok hS ho₁ h0 hn' hlen h₁
  rw [Cmd.bind_ok (Cmd.gets_apply _ _)] at h
  obtain ⟨u, s₂, h₂, h⟩ := Cmd.bind_eq_ok h
  have hk : fu₁.handles k = s.fu.handles k := congrFun hh₁ k
  obtain ⟨fu₂, rfl, hh₂, hm₂, hle⟩ := write_ok (s := { (s.setCxt fun c => { c with digest := c.digest ++ piece }) with
      fu := fu₁ }) hS ho.hdl (hk ▸ ho.holds) (hk ▸ ho.size)
    (by rw [hpl]; simp only [fwUpgradeBufSize] at hn'; omega)
    (fun hid => by
      change (fu₁.handles k).imgId = sblImgId at hid
      show s.cxt.imageWrtCount + piece.length ≤ (fu₁.handles k).imgSize
      rw [hk] at hid ⊢
      rw [hpl]
      exact hlen.trans (ho.sbl hid)) h₂
  rw [Cmd.modify_apply] at h
  cases h
  have hl := ho.length
  have hcount : u32 (s.cxt.imageWrtCount + n) = s.cxt.imageWrtCount + n := u32_of_lt (by omega)
  have hle' : s.cxt.imageWrtCount + piece.length ≤ (s.fu.handles k).imgSize := by
    rw [← hk]
    exact hle
  have hm : fu₂.dev.mem = writeIn (s.fu.handles k).place s.cxt.imageWrtCount piece fu₁.dev.mem := by
    rw [← hk]
    exact hm₂
  refine ⟨fu₂, ?_, hh₂.trans hh₁, hpl ▸ hle', hin₁.trans (hm ▸ writeIn_onlyIn _ hle'), ?_⟩
  · simp only [Session.setCxt, hcount]
  · intro hd hw hb
    have hb' := hb₁ hb
    have hw' := hw₁ _ hd hw
    have hsub : Blank fu₁.dev.mem (s.fu.handles k).place s.cxt.imageWrtCount (s.cxt.imageWrtCount + piece.length) := by
      intro hid x hx hx'
      refine hb' hid x hx (Nat.lt_of_lt_of_le hx' (Nat.add_le_add_left ?_ _))
      rw [hpl]
      exact le_blockCeil _
    rw [hm]
    refine ⟨?_, ?_⟩
    · have := hw'.writeIn (d := piece) (by rw [hd]; exact hsub)
      rw [hd] at this
      exact this
    · have := Blank.writeIn hb' piece
      rw [hpl] at this
      exact this

/-- The block of the next write is blank, also when the last one ended a block. -/
theorem eraseNext_ok (hS : A.Sane) (ho : Opened A s k) (hpos : 0 < s.cxt.imageWrtLength)
    (h : eraseNext s = (.ok (), s')) :
    ∃ fu', s' = { s with fu := fu' } ∧ fu'.handles = s.fu.handles ∧
      OnlyIn (s.fu.handles k).place s.fu.dev.mem fu'.dev.mem ∧
      (∀ b, b.length = s.cxt.imageWrtCount → Written s.fu.dev.mem (s.fu.handles k).place b →
        Written fu'.dev.mem (s.fu.handles k).place b) ∧
      (Blank s.fu.dev.mem (s.fu.handles k).place s.cxt.imageWrtCount (blockCeil s.cxt.imageWrtCount) →
        Blank fu'.dev.mem (s.fu.handles k).place s.cxt.imageWrtCount ((s.cxt.imageWrtCount / 4096 + 1) * 4096)) := by
  rw [eraseNext, Cmd.when] at h
  by_cases hp : s.cxt.imageWrtCount % 4096 = 0 ∧ 0 < s.cxt.imageWrtLength
  · rw [if_pos hp, Cmd.bind_ok (Cmd.gets_apply _ _)] at h
    have hsum : (s.fu.handles k).imgId ≠ sblImgId → s.cxt.imageWrtCount + 4096 < 2 ^ 32 := by
      intro hid
      obtain ⟨-, q, hq, hlo, hhi⟩ := ho.holds.flash hid
      have hq' := hS.data_lt q hq
      have hsz := ho.size
      omega
    obtain ⟨fu', rfl, hh, hm, hle⟩ := erase_ok hS ho.hdl ho.holds hsum h
    refine ⟨fu', rfl, hh, hm ▸ eraseIn_onlyIn _ hle, ?_, ?_⟩
    · intro b hb hw
      rw [hm]
      exact hw.eraseIn 4096 (Nat.le_of_eq hb)
    · intro hb
      rw [hm]
      exact hb.eraseIn _ _ (le_blockCeil _) (.inl (next_block hp.1))
  · rw [if_neg hp] at h
    cases h
    refine ⟨s.fu, rfl, rfl, .refl _ _, fun _ _ hw => hw, fun hb hid x hx hx' => hb hid x hx ?_⟩
    have hmod : s.cxt.imageWrtCount % 4096 ≠ 0 := fun hc => hp ⟨hc, hpos⟩
    exact Nat.lt_of_lt_of_le hx' (Nat.add_le_add_left (in_block hmod) _)

end

/-! ### Opening an image -/

/-- Only the block of the trial FWD has changed. -/
structure OnlyTable (A : Area) (m m' : Mem) : Prop where
  fdt : m'.fdt = m.fdt
  flash : ∀ x ∉ A.trialBlock, m'.flash x = m.flash x
  rram : m'.rram = m.rram

theorem newEntry_imageId (id version start size : ℕ) : (newEntry id version start size).imageId = id := by
  rw [newEntry]
  split <;> rfl

/-- Where an image goes: FS1 to the active FS2, the SBL to its slot, others to the trial memory at `start`. -/
def imagePlace (A : Area) (start : ℕ) (h : ImageHdr) : Spot :=
  if h.imageId = fs1ImgId then ⟨h.imageId, A.fs2.start, A.fs2.size⟩
  else ⟨h.imageId, if h.imageId = sblImgId then A.sbl.start else start, h.diskSize⟩

@[simp] theorem imagePlace_imgId (A : Area) (start : ℕ) (h : ImageHdr) : (imagePlace A start h).imgId = h.imageId := by
  rw [imagePlace]
  split <;> rfl

/-- The entry of an image as it is read back. -/
def imageEntry (A : Area) (start : ℕ) (h : ImageHdr) : ImageEntry :=
  truncEntry (newEntry h.imageId h.version (imagePlace A start h).imgStart (imagePlace A start h).imgSize)

section

variable {env : Env} {fu₀ : Fu} {A : Area} {s s' : Session} {sig : Front} {es : List ImageEntry}

/-- The handle of a partition that was created as entry `n` of the trial FWD. -/
def createdClient (A : Area) (n version : ℕ) (p : Spot) : Client :=
  ⟨1, A.trial, n, p.imgId, version, p.imgStart, p.imgSize⟩

@[simp] theorem createdClient_place (A : Area) (n version : ℕ) (p : Spot) : (createdClient A n version p).place = p :=
  rfl

/-- A new handle: no free one stands before it in the pool. -/
structure Fu.Created (fu : Fu) (k : ℕ) (c : Client) : Prop where
  lt : k < fwUpgradeMaxHandles
  handle : fu.handles k = c
  before : ∀ j < k, (fu.handles j).refCount ≠ 0

theorem Fu.created {s : Fu} {k : ℕ} (h : s.clientEntry? = some k) (c : Client) : (s.setHandle k c).Created k c := by
  refine ⟨(Fu.clientEntry?_free h).1, Fu.setHandle_same _ _ _, fun j hj => ?_⟩
  rw [Fu.setHandle_other (by omega)]
  rw [Fu.clientEntry?, List.find?_range_eq_some] at h
  simpa using h.2.2 j hj

/-- A partition is created: the trial FWD has one more entry. -/
theorem fuCreate_ok {fu fu' : Fu} {version k : ℕ} {p : Spot} (hl : Lists (fu.dev.mem.fwd A.trial) sig es)
    (hid : u32 p.imgId ≠ fwdImageUnused)
    (h : fwUpgradeCreatePartition A.trial p.imgId version p.imgStart p.imgSize fu = (.ok k, fu')) :
    Lists (fu'.dev.mem.fwd A.trial) sig (es ++ [truncEntry (newEntry p.imgId version p.imgStart p.imgSize)]) ∧
      fu'.Created k (createdClient A es.length version p) ∧ OnlyTable A fu.dev.mem fu'.dev.mem ∧
      (p.imgId ≠ sblImgId → p.imgStart % 4096 = 0) := by
  rcases createPartition_cases A.trial p.imgId version p.imgStart p.imgSize fu with ⟨e, heq⟩ |
    ⟨k, -, hal, hk, -, hfree, heq⟩
  · rw [heq] at h
    cases h
  rw [heq] at h
  cases h
  have hn : freeEntry (fu.dev.mem.fwd A.trial) = es.length := hl.free_eq (length_entries _ _) hfree
  rw [hn] at hfree ⊢
  generalize hen : newEntry p.imgId version p.imgStart p.imgSize = en
  have hid' : u32 en.imageId ≠ fwdImageUnused := by
    rw [← hen, newEntry_imageId]
    exact hid
  have hmem : (fu.dev.writes (pages 16 (A.trial * 4096 + 32 + es.length * 16) en.encode)).mem =
      { fu.dev.mem with flash := fu.dev.mem.flash.program (A.trial * 4096 + 32 + es.length * 16) en.encode } := by
    rw [Dev.writes_mem, replay_pages _ _ _ _ (Nat.le_of_eq (ImageEntry.length_encode _))]
  refine ⟨?_, Fu.created (s := fu.writes _) hk _, ?_, fun hne => (hal hne).1⟩
  · show Lists (Mem.fwd (Dev.writes _ _).mem A.trial) sig _
    rw [hmem]
    exact hl.program hfree hid'
  · show OnlyTable A _ (Dev.writes _ _).mem
    rw [hmem]
    refine ⟨rfl, fun x hx => Memory.program_out ?_, rfl⟩
    rw [Area.trialBlock, Range.mem_mk] at hx
    rw [maxFwImageEntries] at hfree
    rw [ImageEntry.length_encode]
    omega

theorem create_ok {v : ℕ} {p : Spot} (ht : s.cxt.trialFwdIdx = A.trial)
    (hl : Lists (s.fu.dev.mem.fwd A.trial) sig es) (hid : u32 p.imgId ≠ fwdImageUnused)
    (h : createPartition p.imgId v p.imgStart p.imgSize s = (.ok (), s')) :
    ∃ k fu', s' = { s with fu := fu', cxt := { s.cxt with partitionHdl := some k } } ∧
      Lists (fu'.dev.mem.fwd A.trial) sig (es ++ [truncEntry (newEntry p.imgId v p.imgStart p.imgSize)]) ∧
      fu'.Created k (createdClient A es.length v p) ∧ OnlyTable A s.fu.dev.mem fu'.dev.mem ∧
      (p.imgId ≠ sblImgId → p.imgStart % 4096 = 0) := by
  rw [createPartition, Cmd.bind_ok (Cmd.gets_apply _ _), ht] at h
  rcases heq : fwUpgradeCreatePartition A.trial p.imgId v p.imgStart p.imgSize s.fu with ⟨e | k, fu'⟩
  · simp only [Cmd.bind_apply, Cmd.orFail, onFu, Cmd.zoom, heq] at h
    cases h
  · simp only [Cmd.bind_apply, Cmd.orFail, onFu, Cmd.zoom, heq, Cmd.modify_apply] at h
    cases h
    exact ⟨k, fu', rfl, fuCreate_ok hl hid heq⟩

/-- The place of FS2 in the active FWD. -/
theorem Layout.fs2_place (hL : Layout env.cfg fu₀ A) (hg : Grown A fu₀.dev s.fu.dev) {i : ℕ} {en : ImageEntry}
    (hlt : s.activeFwd < fwUpgradeMaxFwd)
    (hf : findEntry (s.fu.dev.mem.fwd s.activeFwd) fs2ImgId = some (i, en)) (fwdIdx : ℕ) :
    (clientOf fwdIdx i en).imgStart = A.fs2.start ∧ (clientOf fwdIdx i en).imgSize = A.fs2.size := by
  replace hf := hL.active_found hg hlt hf
  have hr : A.fs2 = ⟨(clientOf 0 i en).imgStart, (clientOf 0 i en).imgSize⟩ := by
    rw [hL.area.fs2, sessionArea]
    simp only
    rw [← show A.active = fwUpgradeGetActiveFwd fu₀.dev.mem.fdt from hL.area.active, partitionRange, hf]
  rw [hr]
  exact ⟨rfl, rfl⟩

/-- The partition of an image is created. -/
structure Opening (A : Area) (sig : Front) (es : List ImageEntry) (h : ImageHdr) (s : Session) (k : ℕ) (fu' : Fu) : Prop where
  lists : Lists (fu'.dev.mem.fwd A.trial) sig (es ++ [imageEntry A s.cxt.trialMemStart h])
  created : fu'.Created k (createdClient A es.length h.version (imagePlace A s.cxt.trialMemStart h))
  fits : h.imageId = fs1ImgId → h.diskSize ≤ A.fs2.size

theorem createFs1_ok (hL : Layout env.cfg fu₀ A) (hg : Grown A fu₀.dev s.fu.dev) (ht : s.cxt.trialFwdIdx = A.trial)
    (hl : Lists (s.fu.dev.mem.fwd A.trial) sig es) {h : ImageHdr} (hid : h.imageId = fs1ImgId)
    (heq : createFs1 h s = (.ok (), s')) :
    ∃ k fu', s' = { s with fu := fu', cxt := { s.cxt with partitionHdl := some k } } ∧
      Opening A sig es h s k fu' ∧ OnlyTable A s.fu.dev.mem fu'.dev.mem := by
  have hplace : imagePlace A s.cxt.trialMemStart h = ⟨h.imageId, A.fs2.start, A.fs2.size⟩ := if_pos hid
  rw [createFs1] at heq
  obtain ⟨c, s₁, h₁, heq⟩ := Cmd.bind_eq_ok heq
  rcases locatePartition_cases fs2ImgId .flashImageNotFound s with hloc | ⟨k, i, en, hlt, -, -, hf, hloc⟩
  · rw [hloc] at h₁
    cases h₁
  rw [hloc] at h₁
  cases h₁
  obtain ⟨hst, hsz⟩ := hL.fs2_place hg hlt hf s.activeFwd
  rw [Cmd.ensure_bind] at heq
  split at heq
  · rename_i hle
    rw [hst, hsz] at heq
    obtain ⟨k', fu', hs', hl', hc', hm', -⟩ := create_ok (s := { s with
      fu := (s.fu.setHandle k (clientOf s.activeFwd i en)).freeHandle k
      cxt := { s.cxt with partitionHdl := none } }) (p := ⟨h.imageId, A.fs2.start, A.fs2.size⟩) ht hl
      (by show u32 h.imageId ≠ _; rw [hid]; decide) heq
    refine ⟨k', fu', hs', ⟨?_, ?_, fun _ => hsz ▸ hle⟩, hm'⟩
    · rw [imageEntry, hplace]
      exact hl'
    · rw [hplace]
      exact hc'
  · cases heq

/-- Only the table and the partition of an image have changed. -/
structure OnlyImage (A : Area) (c : Spot) (m m' : Mem) : Prop where
  fdt : m'.fdt = m.fdt
  flash : ∀ x ∉ A.trialBlock, c.imgId = sblImgId ∨ x ∉ (⟨c.imgStart, c.imgSize⟩ : Range) → m'.flash x = m.flash x
  rram : ∀ x, c.imgId ≠ sblImgId ∨ x ∉ (⟨c.imgStart, c.imgSize⟩ : Range) → m'.rram x = m.rram x

theorem OnlyTable.image {m m' : Mem} (h : OnlyTable A m m') (c : Spot) : OnlyImage A c m m' :=
  ⟨h.fdt, fun x hx _ => h.flash x hx, fun x _ => by rw [h.rram]⟩

theorem OnlyIn.image {c : Spot} {m m' : Mem} (h : OnlyIn c m m') : OnlyImage A c m m' :=
  ⟨h.fdt, fun x _ hx => h.flash x hx, h.rram⟩

theorem OnlyImage.trans {c : Spot} {m₁ m₂ m₃ : Mem} (h : OnlyImage A c m₁ m₂) (h' : OnlyImage A c m₂ m₃) :
    OnlyImage A c m₁ m₃ :=
  ⟨h'.fdt.trans h.fdt, fun x hx hx' => (h'.flash x hx hx').trans (h.flash x hx hx'),
    fun x hx => (h'.rram x hx).trans (h.rram x hx)⟩

/-- The partition of the current image is created and its first block erased. -/
theorem openImage_ok (hL : Layout env.cfg fu₀ A) (ho : A.OffFwds) (hb : Busy env A fu₀.dev s) (hd : Downloading s.cxt)
    (hl : Lists (s.fu.dev.mem.fwd A.trial) sig es)
    (hid : u32 (s.cxt.hdrAt env s.cxt.imageIndex).imageId ≠ fwdImageUnused)
    (heq : openImage (s.cxt.hdrAt env s.cxt.imageIndex) s = (.ok (), s')) :
    let h := s.cxt.hdrAt env s.cxt.imageIndex
    ∃ k fu', s' = { s with
        fu := fu'
        cxt := { s.cxt with imageWrtCount := 0, imageWrtLength := h.imageLength, partitionHdl := some k } } ∧
      Opening A sig es h s k fu' ∧ OnlyImage A (imagePlace A s.cxt.trialMemStart h) s.fu.dev.mem fu'.dev.mem ∧
      (h.imageId = fs1ImgId ∨ h.imageId = sblImgId → OnlyTable A s.fu.dev.mem fu'.dev.mem) ∧
      (h.imageId ≠ fs1ImgId → Blank fu'.dev.mem (imagePlace A s.cxt.trialMemStart h) 0 4096) := by
  intro h
  have hmem := hd.mem hb.placing env
  have hroom := hd.room hb.placing env
  change u32 h.imageId ≠ _ at hid
  change h ∈ _ at hmem
  change _ + h.taken ≤ _ at hroom
  rw [openImage, Cmd.bind_ok (Cmd.modify_apply _ _)] at heq
  set s₁ := s.setCxt fun c => { c with imageWrtCount := 0, imageWrtLength := h.imageLength } with hs₁
  by_cases hfs : h.imageId = fs1ImgId
  · rw [if_pos (show (s.cxt.hdrAt env s.cxt.imageIndex).imageId = fs1ImgId from hfs)] at heq
    obtain ⟨k, fu', rfl, hop, hm⟩ := createFs1_ok hL (s := s₁) hb.grown hb.placing.trial hl hfs heq
    exact ⟨k, fu', rfl, ⟨hop.lists, hop.created, hop.fits⟩, hm.image _, fun _ => hm, fun hne => absurd hfs hne⟩
  · rw [if_neg (show ¬(s.cxt.hdrAt env s.cxt.imageIndex).imageId = fs1ImgId from hfs), Cmd.bind_ok (Cmd.gets_apply _ _)] at heq
    obtain ⟨u, s₂, h₁, h₂⟩ := Cmd.bind_eq_ok heq
    have hp : imagePlace A s.cxt.trialMemStart h = ⟨h.imageId, if h.imageId = sblImgId then s.cxt.trialSblStart
        else s.cxt.trialMemStart, h.diskSize⟩ := by
      rw [imagePlace, if_neg hfs, hb.placing.sblStart]
    obtain ⟨k, fu₁, rfl, hl₁, hc₁, hm₁, hal⟩ := create_ok (v := h.version) (s := s₁)
      (p := imagePlace A s.cxt.trialMemStart h) hb.placing.trial hl (by rw [imagePlace_imgId]; exact hid) (by rw [hp]; exact h₁)
    have hk : (fu₁.handles k).place = imagePlace A s.cxt.trialMemStart h := by
      rw [hc₁.handle, createdClient_place]
    have hold : A.Holds (fu₁.handles k) := by
      rw [hc₁.handle]
      refine ⟨fun hne => ⟨hal hne, A.mem, by simp [Area.data], ?_⟩, fun hs => ?_⟩
      · have hne' : h.imageId ≠ sblImgId := by
          rw [← imagePlace_imgId A s.cxt.trialMemStart h]
          exact hne
        rw [ImageHdr.taken, if_neg (by rintro (hc | hc) <;> contradiction)] at hroom
        simp only [createdClient, hp, if_neg hne']
        exact ⟨hb.placing.start_le, hroom⟩
      · have hs' : h.imageId = sblImgId := by
          rw [← imagePlace_imgId A s.cxt.trialMemStart h]
          exact hs
        simp only [createdClient, hp, if_pos hs']
        exact ⟨hb.placing.sblStart, (hb.placing.sbl h hmem hs').2⟩
    obtain ⟨fu₂, rfl, hh₂, hm₂, hle⟩ := erase_ok hL.sane (s := { s₁ with
      fu := fu₁, cxt := { s₁.cxt with partitionHdl := some k } }) (k := k) rfl hold (fun _ => by decide) h₂
    change fu₂.dev.mem = eraseIn (fu₁.handles k).place 0 4096 fu₁.dev.mem at hm₂
    change (fu₁.handles k).place.imgId ≠ sblImgId → 0 + 4096 ≤ (fu₁.handles k).place.imgSize at hle
    change fu₂.handles = fu₁.handles at hh₂
    rw [hk] at hm₂ hle
    have hin : OnlyIn (imagePlace A s.cxt.trialMemStart h) fu₁.dev.mem fu₂.dev.mem := hm₂ ▸ eraseIn_onlyIn _ hle
    have hoff : (imagePlace A s.cxt.trialMemStart h).imgId ≠ sblImgId →
        (imagePlace A s.cxt.trialMemStart h).imgSize = 0 ∨
          fwUpgradeMaxFwd * 4096 ≤ (imagePlace A s.cxt.trialMemStart h).imgStart := by
      rw [← hk]
      exact hold.off ho
    have hl₂ := hl₁.low hb.grown.1 fun x hx => hin.low hoff hx
    rw [imagePlace_imgId] at hl₂
    refine ⟨k, fu₂, rfl, ⟨hl₂, ?_, fun hc => absurd hc hfs⟩, (hm₁.image _).trans hin.image,
      fun hc => ?_, fun _ => ?_⟩
    · exact ⟨hc₁.lt, hh₂ ▸ hc₁.handle, hh₂ ▸ hc₁.before⟩
    · have hs := hc.resolve_left hfs
      rw [eraseIn, if_pos (by rw [imagePlace_imgId]; exact hs)] at hm₂
      rw [hm₂]
      exact hm₁
    · rw [hm₂]
      exact Blank.eraseIn (show Blank _ _ _ 0 from fun _ x hx hx' => absurd hx' (by omega)) 0 4096 (Nat.le_refl _) (.inl (Nat.le_refl _))

end

end Qcc730.Upgrade
