import Qcc730.Rram.Regions
import Qcc730.Sbl.Dxe

/-! The word path of the SBL (`nt_bl_rram_write` in `nt_bl_mem.c`).

    The data goes to RRAM a row of 16 bytes at a time: a row that is not replaced as a whole is read first, the
    data is put over it, and its four words are written. A word is tried five times, each time with a look at the
    XIP marker, at the reliability status and at the cell. Where the call succeeds RRAM holds what the DMA path
    would have left there. -/

namespace Qcc730.Sbl
open Lib
open Rram (Errno)

/-! ### The range check -/

/-- The symbols of the linker script. -/
structure RramSymbols where
  rramRegionStartAddr : ℕ
  rramRegionEndAddress : ℕ
  otpRegionStAddr : ℕ
  otpRegionEndAddr : ℕ

/-- `RRAM_MAIN_ADD_CHECK` -/
def RramSymbols.MainAddCheck (l : RramSymbols) (address : ℕ) : Prop :=
  l.rramRegionStartAddr ≤ address ∧ address ≤ l.rramRegionEndAddress

/-- `RRAM_OTP_ADD_CHECK` -/
def RramSymbols.OtpAddCheck (l : RramSymbols) (address : ℕ) : Prop :=
  l.otpRegionStAddr ≤ address ∧ address ≤ l.otpRegionEndAddr

instance (l : RramSymbols) (a : ℕ) : Decidable (l.MainAddCheck a) := inferInstanceAs (Decidable (_ ∧ _))

instance (l : RramSymbols) (a : ℕ) : Decidable (l.OtpAddCheck a) := inferInstanceAs (Decidable (_ ∧ _))

/-- `rram_address_range_check`; `permitted` is `check_otp_region_rw_permission`. -/
def rramAddressRangeCheck (l : RramSymbols) (permitted : ℕ → ℕ → Bool) (rramAdd dataLen : ℕ) : Bool :=
  let ending := u32 (rramAdd + dataLen)
  if l.OtpAddCheck rramAdd ∧ l.OtpAddCheck ending then permitted rramAdd dataLen
  else if l.OtpAddCheck rramAdd ∨ l.OtpAddCheck ending then false
  else if ¬(l.MainAddCheck rramAdd ∨ l.OtpAddCheck rramAdd) ∨ ¬(l.MainAddCheck ending ∨ l.OtpAddCheck ending) then
    false
  else true

/-! ### One word -/

/-- What one try at a word meets: the XIP marker before and after it, the bytes that reach the cells, and the
    reliability status. -/
structure WordTry where
  xipBefore : Bool
  cells : Bytes → Bytes
  unreliable : Bool
  xipAfter : Bool

/-- RRAM and the number of tries made. -/
structure Words where
  rram : Memory
  tries : ℕ

section Path

variable (env : ℕ → WordTry)

/-- The loop of `_rram_write_status`, for the tries that are left; `data` is the word's bytes. -/
def statusLoop (dst : ℕ) (data : Bytes) : ℕ → Cmd Words Errno Unit
  | 0 => Cmd.fail .ebade
  | n + 1 => fun s =>
    let t := env s.tries
    if t.xipBefore = false then statusLoop dst data n { s with tries := s.tries + 1 }
    else
      let s' : Words := ⟨s.rram.store dst ((t.cells data).take data.length), s.tries + 1⟩
      if t.unreliable = true then statusLoop dst data n s'
      else if s'.rram.read dst data.length ≠ data then statusLoop dst data n s'
      else if t.xipAfter = false then statusLoop dst data n s'
      else (.ok (), s')

/-- `_rram_write_status`, with `NT_RRAM_NRETRIES` tries. -/
def rramWriteStatus (dst : ℕ) (data : Bytes) : Cmd Words Errno Unit := statusLoop env dst data 5

/-- The `n` words of a block from `wordIdx` on. -/
def wordsLoop (blockAddr : ℕ) (blk : Bytes) : ℕ → ℕ → Cmd Words Errno Unit
  | 0, _ => pure ()
  | n + 1, wordIdx => do
    rramWriteStatus env (blockAddr + wordIdx * 4) ((blk.drop (wordIdx * 4)).take 4)
    wordsLoop blockAddr blk n (wordIdx + 1)

/-! ### The rows -/

/-- The `do` loop: data put over a block from `byteIdx` on, and what is left of the data. -/
def putBytes : Bytes → ℕ → Bytes → Bytes × Bytes
  | blk, _, [] => (blk, [])
  | blk, byteIdx, b :: src =>
    if byteIdx + 1 < 16 ∧ 0 < src.length then putBytes (blk.set byteIdx b) (byteIdx + 1) src
    else (blk.set byteIdx b, src)

/-- The block to put the data over: as it was for the row before, unless the row is read. -/
def destinationBlock (blockAddr byteIdx length : ℕ) (dstBlk : Bytes) : Cmd Words Errno Bytes :=
  if 0 < byteIdx ∨ length < 16 then Cmd.gets fun s => s.rram.read blockAddr 16 else pure dstBlk

/-- The loop over the rows up to `lastBlockAddr`; the fuel is at least their number. -/
def rowsLoop (lastBlockAddr : ℕ) : ℕ → ℕ → ℕ → Bytes → Bytes → Cmd Words Errno Unit
  | 0, _, _, _, _ => pure ()
  | n + 1, blockAddr, byteIdx, dstBlk, src =>
    if blockAddr ≤ lastBlockAddr then do
      let blk ← destinationBlock blockAddr byteIdx src.length dstBlk
      let put := putBytes blk byteIdx src
      wordsLoop env blockAddr put.1 4 0
      rowsLoop lastBlockAddr n (u32 (blockAddr + 16)) 0 put.1 put.2
    else pure ()

/-- `nt_bl_rram_write`; `dstBlk` is what its buffer holds at first. -/
def ntBlRramWrite (l : RramSymbols) (permitted : ℕ → ℕ → Bool) (dstBlk : Bytes) (dst : ℕ) (wdata : Bytes) :
    Cmd Words Errno Unit :=
  if wdata.length = 0 then Cmd.fail .einval
  else if rramAddressRangeCheck l permitted dst wdata.length = false then Cmd.fail .einval
  else
    let last := u32 (dst + (wdata.length - 1))
    rowsLoop env (last - last % 16) wdata.length (dst - dst % 16) (dst % 16) dstBlk wdata

/-! ### What a success leaves -/

/-- Ending well from `s`, a command has stored `b` at `a`. -/
def StoresFrom (s : Words) (a : ℕ) (b : Bytes) (c : Cmd Words Errno Unit) : Prop :=
  (c s).1 = .ok () → (c s).2.rram = s.rram.store a b

/-- Ending well, a command has stored `b` at `a`. -/
def Stores (a : ℕ) (b : Bytes) (c : Cmd Words Errno Unit) : Prop := ∀ s, StoresFrom s a b c

variable {env}

theorem Stores.pure (a : ℕ) : Stores a [] (pure ()) := fun _ _ => (Memory.store_nil _ _).symm

/-- Two stores side by side. -/
theorem StoresFrom.bind {s : Words} {a : ℕ} {b b' : Bytes} {c c' : Cmd Words Errno Unit} (h : StoresFrom s a b c)
    (h' : Stores (a + b.length) b' c') : StoresFrom s a (b ++ b') (c >>= fun _ => c') := by
  intro hok
  rcases hc : c s with ⟨_ | _, s'⟩
  · rw [Cmd.bind_error hc] at hok
    exact nomatch hok
  · rw [Cmd.bind_ok hc] at hok ⊢
    have hfirst := h (by rw [hc])
    rw [hc] at hfirst
    rw [h' s' hok, hfirst, Memory.store_append]

/-- However many tries it takes, the word is there if one succeeds. -/
theorem statusLoop_stores (dst : ℕ) (data : Bytes) (n : ℕ) : Stores dst data (statusLoop env dst data n) := by
  induction n with
  | zero => exact fun s hok => nomatch hok
  | succ n ih =>
    intro s hok
    have hshort : ((env s.tries).cells data |>.take data.length).length ≤ data.length := List.length_take_le _ _
    have hagain : ∀ {s'}, (statusLoop env dst data n ⟨s.rram.store dst (((env s.tries).cells data).take data.length),
        s.tries + 1⟩) = s' → s'.1 = .ok () → s'.2.rram = s.rram.store dst data := by
      rintro _ rfl hok
      rw [ih _ hok]
      exact Memory.store_store s.rram dst hshort
    simp only [statusLoop] at hok ⊢
    split_ifs at hok ⊢ with hx hu hr ha
    · exact ih _ hok
    · exact hagain rfl hok
    · exact hagain rfl hok
    · exact hagain rfl hok
    · -- the word has been read back
      have hread := not_not.mp hr
      funext x
      show s.rram.store dst _ x = _
      by_cases hin : dst ≤ x ∧ x < dst + data.length
      · obtain ⟨i, rfl⟩ : ∃ i, x = dst + i := ⟨x - dst, by omega⟩
        have hi : i < data.length := by omega
        have hcell := Memory.getD_read (s.rram.store dst (((env s.tries).cells data).take data.length)) hi (a := dst)
        rw [Memory.store_in hi, ← hcell, hread]
      · rw [Memory.store_out (by omega), Memory.store_out (by omega)]

theorem wordsLoop_stores (blockAddr : ℕ) {blk : Bytes} (hb : blk.length = 16) (n wordIdx : ℕ) (hn : wordIdx + n = 4) :
    Stores (blockAddr + wordIdx * 4) (blk.drop (wordIdx * 4)) (wordsLoop env blockAddr blk n wordIdx) := by
  induction n generalizing wordIdx with
  | zero =>
    obtain rfl : wordIdx = 4 := hn
    rw [List.drop_of_length_le (by omega)]
    exact Stores.pure _
  | succ n ih =>
    have hword : ((blk.drop (wordIdx * 4)).take 4).length = 4 := by
      rw [List.length_take, List.length_drop]
      omega
    have hrest := ih (wordIdx + 1) (by omega)
    have hsplit : blk.drop (wordIdx * 4) =
        (blk.drop (wordIdx * 4)).take 4 ++ blk.drop ((wordIdx + 1) * 4) := by
      rw [Nat.succ_mul, ← List.drop_drop, List.take_append_drop]
    rw [hsplit, wordsLoop]
    refine fun s => (statusLoop_stores _ _ 5 s).bind ?_
    rw [hword, Nat.add_assoc, ← Nat.succ_mul]
    exact hrest

/-- The block after the `do` loop. -/
theorem putBytes_eq {blk src : Bytes} {i : ℕ} (hb : blk.length = 16) (hi : i < 16) (hs : 0 < src.length) :
    putBytes blk i src =
      (blk.take i ++ src.take (16 - i) ++ blk.drop (i + min (16 - i) src.length), src.drop (16 - i)) := by
  induction src generalizing blk i with
  | nil => exact absurd hs (lt_irrefl 0)
  | cons b src ih =>
    have hset : (blk.set i b).take (i + 1) = blk.take i ++ [b] := by
      rw [List.take_add_one, List.take_set_of_le le_rfl, List.getElem?_set_self (by omega)]
      rfl
    have hrest : (blk.set i b).drop (i + 1) = blk.drop (i + 1) := List.drop_set_of_lt (Nat.lt_succ_self i)
    have hroom : 16 - i = 16 - (i + 1) + 1 := by omega
    rw [putBytes, hroom, List.take_succ_cons, List.drop_succ_cons]
    by_cases hmore : i + 1 < 16 ∧ 0 < src.length
    · have hend : i + 1 + min (16 - (i + 1)) src.length = i + min (16 - (i + 1) + 1) (b :: src).length := by
        rw [List.length_cons]
        omega
      rw [if_pos hmore, ih (by rw [List.length_set, hb]) hmore.1 hmore.2, hset, hend,
        List.drop_set_of_lt (by rw [List.length_cons]; omega)]
      simp only [List.append_assoc, List.cons_append, List.nil_append]
    · -- the block is full or the data is used up
      have hlast : min (16 - (i + 1)) src.length = 0 := by omega
      have hend : i + min (16 - (i + 1) + 1) (b :: src).length = i + 1 := by
        rw [List.length_cons]
        omega
      rw [if_neg hmore, hend, List.set_eq_take_append_cons_drop, if_pos (by omega)]
      rcases Nat.min_eq_zero_iff.mp hlast with h0 | h0
      · rw [h0, List.take_zero, List.drop_zero]
        simp only [List.append_assoc, List.cons_append, List.nil_append]
      · obtain rfl := List.eq_nil_of_length_eq_zero h0
        rw [List.take_nil, List.drop_nil]
        simp only [List.append_assoc, List.cons_append, List.nil_append]

theorem length_putBytes {blk src : Bytes} {i : ℕ} (hb : blk.length = 16) (hi : i < 16) (hs : 0 < src.length) :
    (putBytes blk i src).1.length = 16 := by
  rw [putBytes_eq hb hi hs]
  simp only [List.length_append, List.length_take, List.length_drop]
  omega

/-- Bytes put over what was read, and all of it stored. -/
theorem store_over_read (m : Memory) (a : ℕ) {i n : ℕ} {d : Bytes} (h : i + d.length ≤ n) :
    m.store a ((m.read a n).take i ++ d ++ (m.read a n).drop (i + d.length)) = m.store (a + i) d := by
  obtain ⟨r, rfl⟩ : ∃ r, n = i + d.length + r := ⟨n - (i + d.length), by omega⟩
  have hfirst : (m.read a (i + d.length + r)).take i = m.read a i := by
    rw [Nat.add_assoc, Memory.read_add, List.take_left' (Memory.length_read _ _ _)]
  have hlast : (m.read a (i + d.length + r)).drop (i + d.length) = m.read (a + (i + d.length)) r := by
    rw [Memory.read_add, List.drop_left' (Memory.length_read _ _ _)]
  rw [hfirst, hlast, List.append_assoc, ← Memory.store_append, Memory.store_read, Memory.length_read,
    ← Memory.store_append, Nat.add_assoc]
  refine Memory.store_of_eq fun j hj => ?_
  rw [Memory.length_read] at hj
  rw [Memory.store_out (by omega), Memory.getD_read m hj]

/-- A row with its new bytes, stored as a whole, is the store of the new bytes; a row that is not read is
    replaced as a whole. -/
theorem destinationBlock_put {dstBlk src : Bytes} {i : ℕ} (hb : dstBlk.length = 16) (hi : i < 16)
    (hs : 0 < src.length) (a : ℕ) (s : Words) :
    ∃ blk, destinationBlock a i src.length dstBlk s = (.ok blk, s) ∧ blk.length = 16 ∧
      s.rram.store a (putBytes blk i src).1 = s.rram.store (a + i) (src.take (16 - i)) := by
  rw [destinationBlock]
  by_cases hread : 0 < i ∨ src.length < 16
  · rw [if_pos hread]
    have hlen : (s.rram.read a 16).length = 16 := Memory.length_read _ _ _
    refine ⟨_, rfl, hlen, ?_⟩
    have hnew : (src.take (16 - i)).length = min (16 - i) src.length := List.length_take
    rw [putBytes_eq hlen hi hs, ← hnew]
    exact store_over_read s.rram a (by rw [hnew]; omega)
  · rw [not_or, not_lt, not_lt] at hread
    obtain rfl := Nat.le_zero.mp hread.1
    rw [if_neg (by omega)]
    refine ⟨dstBlk, rfl, hb, ?_⟩
    rw [putBytes_eq hb hi hs, min_eq_left (by omega)]
    simp only [List.take_zero, List.nil_append, Nat.sub_zero, Nat.zero_add, Nat.add_zero]
    rw [List.drop_of_length_le (by omega), List.append_nil]

theorem rowsLoop_done {last a : ℕ} (h : last < a) (n i : ℕ) (dstBlk src : Bytes) :
    rowsLoop env last n a i dstBlk src = pure () := by
  rcases n with _ | n
  · rfl
  · rw [rowsLoop, if_neg (by omega)]

/-- The rows from `a` to the one of the last byte. -/
theorem rowsLoop_stores {n a i : ℕ} {dstBlk src : Bytes} (hi : i < 16) (hb : dstBlk.length = 16)
    (hs : 0 < src.length) (hn : src.length ≤ n) (hfit : a + i + src.length + 16 ≤ 2 ^ 32) :
    Stores (a + i) src (rowsLoop env (a + (i + src.length - 1) / 16 * 16) n a i dstBlk src) := by
  induction n generalizing a i dstBlk src with
  | zero => omega
  | succ n ih =>
    intro s
    obtain ⟨blk, hblk, hlen, hstore⟩ := destinationBlock_put hb hi hs a s
    have hput := length_putBytes hlen hi hs
    have hnext : u32 (a + 16) = a + 16 := u32_of_lt (by omega)
    have hrow : StoresFrom s (a + i) (src.take (16 - i)) (wordsLoop env a (putBytes blk i src).1 4 0) := by
      intro hok
      have hwords := wordsLoop_stores a hput 4 0 rfl s hok
      rw [Nat.zero_mul, Nat.add_zero, List.drop_zero, hstore] at hwords
      exact hwords
    have hrest : Stores (a + i + (src.take (16 - i)).length) (src.drop (16 - i))
        (rowsLoop env (a + (i + src.length - 1) / 16 * 16) n (a + 16) 0 (putBytes blk i src).1
          (putBytes blk i src).2) := by
      rw [putBytes_eq hlen hi hs, List.length_take]
      by_cases hmore : 16 - i < src.length
      · have hat : a + i + min (16 - i) src.length = a + 16 + 0 := by omega
        have hleft : (src.drop (16 - i)).length = src.length - (16 - i) := List.length_drop
        have hlast : a + (i + src.length - 1) / 16 * 16 =
            a + 16 + (0 + (src.drop (16 - i)).length - 1) / 16 * 16 := by
          rw [hleft]
          omega
        rw [hat, hlast]
        rw [putBytes_eq hlen hi hs] at hput
        exact ih (by decide) hput (by omega) (by omega) (by omega)
      · rw [List.drop_of_length_le (by omega), rowsLoop_done (by omega)]
        exact Stores.pure _
    have hall := hrow.bind hrest
    rw [List.take_append_drop] at hall
    rw [rowsLoop, if_pos (by omega), StoresFrom, Cmd.bind_ok hblk, hnext]
    exact hall

/-- A success of the word path is one store of the data. -/
theorem ntBlRramWrite_stores (l : RramSymbols) (permitted : ℕ → ℕ → Bool) {dstBlk : Bytes}
    (hb : dstBlk.length = 16) {dst : ℕ} {wdata : Bytes} (hfit : dst + wdata.length + 16 ≤ 2 ^ 32) :
    Stores dst wdata (ntBlRramWrite env l permitted dstBlk dst wdata) := by
  rw [ntBlRramWrite]
  split_ifs with h0 hr
  · exact fun s hok => nomatch hok
  · exact fun s hok => nomatch hok
  · have hlast : u32 (dst + (wdata.length - 1)) = dst + (wdata.length - 1) := u32_of_lt (by omega)
    have hrow : dst + (wdata.length - 1) - (dst + (wdata.length - 1)) % 16 =
        dst - dst % 16 + (dst % 16 + wdata.length - 1) / 16 * 16 := by omega
    have hat : dst - dst % 16 + dst % 16 = dst := by omega
    have hstores : Stores (dst - dst % 16 + dst % 16) wdata (rowsLoop env _ _ _ _ _ wdata) :=
      rowsLoop_stores (Nat.mod_lt dst (by decide)) hb (Nat.pos_of_ne_zero h0) le_rfl (by omega)
    rw [hat, ← hrow] at hstores
    rw [hlast]
    exact hstores

/-! ### A success -/

/-- A try that goes well. -/
def WordTry.Good (t : WordTry) : Prop :=
  t.xipBefore = true ∧ (∀ b, t.cells b = b) ∧ t.unreliable = false ∧ t.xipAfter = true

theorem statusLoop_succeeds (hgood : ∀ n, (env n).Good) (dst : ℕ) (data : Bytes) (n : ℕ) (s : Words) :
    ∃ s', statusLoop env dst data (n + 1) s = (.ok (), s') := by
  obtain ⟨hx, hc, hu, ha⟩ := hgood s.tries
  have hread : (s.rram.store dst data).read dst data.length = data := Memory.read_store _ _ _
  refine ⟨⟨s.rram.store dst data, s.tries + 1⟩, ?_⟩
  simp only [statusLoop, hx, hc, hu, ha, List.take_length, hread, ne_eq, not_true_eq_false, if_false,
    Bool.true_eq_false, Bool.false_eq_true]

theorem wordsLoop_succeeds (hgood : ∀ n, (env n).Good) (a : ℕ) (blk : Bytes) (n wordIdx : ℕ) (s : Words) :
    ∃ s', wordsLoop env a blk n wordIdx s = (.ok (), s') := by
  induction n generalizing wordIdx s with
  | zero => exact ⟨s, rfl⟩
  | succ n ih =>
    obtain ⟨s₁, hs₁⟩ := statusLoop_succeeds hgood (a + wordIdx * 4) ((blk.drop (wordIdx * 4)).take 4) 4 s
    rw [wordsLoop, rramWriteStatus, Cmd.bind_ok hs₁]
    exact ih (wordIdx + 1) s₁

theorem rowsLoop_succeeds (hgood : ∀ n, (env n).Good) (last n a i : ℕ) (dstBlk src : Bytes) (s : Words) :
    ∃ s', rowsLoop env last n a i dstBlk src s = (.ok (), s') := by
  induction n generalizing a i dstBlk src s with
  | zero => exact ⟨s, rfl⟩
  | succ n ih =>
    rw [rowsLoop]
    by_cases hin : a ≤ last
    · have hblk : ∃ blk, destinationBlock a i src.length dstBlk s = (.ok blk, s) := by
        rw [destinationBlock]
        split_ifs
        · exact ⟨_, rfl⟩
        · exact ⟨_, rfl⟩
      obtain ⟨blk, hblk⟩ := hblk
      obtain ⟨s₁, hs₁⟩ := wordsLoop_succeeds hgood a (putBytes blk i src).1 4 0 s
      rw [if_pos hin, Cmd.bind_ok hblk, Cmd.bind_ok hs₁]
      exact ih _ _ _ _ _
    · exact ⟨s, if_neg hin ▸ rfl⟩

end Path

/-- Data, destination and length that both paths accept: the DMA path stores the data, and so does the word path
    whenever it succeeds, which it does if the tries go well. -/
theorem word_path_agrees (env : ℕ → WordTry) (l : RramSymbols) (permitted : ℕ → ℕ → Bool) (dstBlk : Bytes)
    (hb : dstBlk.length = 16) (dst : ℕ) (wdata : Bytes) (s : Words) (h0 : wdata.length ≠ 0)
    (hword : rramAddressRangeCheck l permitted dst wdata.length = true)
    (hdxe : rramVerifyAddress dst wdata.length = true) :
    Dxe.rramWriteDxe s.rram dst wdata = .ok (s.rram.store dst wdata) ∧
      ((ntBlRramWrite env l permitted dstBlk dst wdata s).1 = .ok () →
        (ntBlRramWrite env l permitted dstBlk dst wdata s).2.rram = s.rram.store dst wdata) ∧
      ((∀ n, (env n).Good) → (ntBlRramWrite env l permitted dstBlk dst wdata s).1 = .ok ()) := by
  refine ⟨?_, ?_, fun hgood => ?_⟩
  · rw [Dxe.rramWriteDxe_eq, if_pos hdxe]
  · refine ntBlRramWrite_stores l permitted hb ?_ s
    simp only [rramVerifyAddress, Bool.and_eq_true, decide_eq_true_eq, beq_iff_eq] at hdxe
    omega
  · rw [ntBlRramWrite, if_neg h0, if_neg (by rw [hword]; decide)]
    obtain ⟨s', hs'⟩ := rowsLoop_succeeds hgood _ wdata.length (dst - dst % 16) (dst % 16) dstBlk wdata s
    exact congrArg Prod.fst hs'

/-- The two paths at an address inside a row. -/
theorem word_path_agrees_inside :
    ([1, 2, 3] : Bytes).length ≠ 0 ∧
      rramAddressRangeCheck ⟨0x200000, 0x37FFFF, 0x1A0000, 0x1A0FFF⟩ (fun _ _ => false) 0x200004 3 = true ∧
      rramVerifyAddress 0x200004 3 = true ∧
      (ntBlRramWrite (fun _ => ⟨true, id, false, true⟩) ⟨0x200000, 0x37FFFF, 0x1A0000, 0x1A0FFF⟩ (fun _ _ => false)
        (List.replicate 16 0) 0x200004 [1, 2, 3] ⟨fun _ => 0, 0⟩).1 = .ok () :=
  ⟨by decide, by decide, by decide,
    (word_path_agrees (fun _ => ⟨true, id, false, true⟩) ⟨0x200000, 0x37FFFF, 0x1A0000, 0x1A0FFF⟩
      (fun _ _ => false) (List.replicate 16 0) (by decide) 0x200004 [1, 2, 3] ⟨fun _ => 0, 0⟩ (by decide)
      (by decide) (by decide)).2.2 fun _ => ⟨rfl, fun _ => rfl, rfl, rfl⟩⟩

end Qcc730.Sbl
