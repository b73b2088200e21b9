import Qcc730.Lib.Cmd
import Qcc730.Rram.Regions

/-! Writing RRAM from the application (`nt_rram_write` in `nt_mem.c`).

    The DMA engine takes whole rows of 16 bytes from a word-aligned source. What does not fit is written through
    the buffer `temp_r_w_buff`: a window of RRAM is read into it, the data is put over it and the window is
    written back. The read may be refused, next to the end of a region or next to a locked one, and its result is
    not looked at: the window is then written back with what the buffer held before. -/

namespace Qcc730.Rram
open Lib

/-- One try of a transfer: whether it was done in time, and what it has written if not. -/
structure Attempt where
  done : Bool
  left : Bytes → Bytes

/-- RRAM with the OTP area, `temp_r_w_buff` (256 bytes from address 0 on), and the transfers tried so far. -/
structure RramState where
  cells : Memory
  buff : Memory
  tries : ℕ

/-- `nt_rram_read` -/
def ntRramRead (cells : Memory) (address length : ℕ) : Except Errno Bytes :=
  if length = 0 then .error .einval
  else if rramAddressRangeCheck cells address length .readLocked then .ok (cells.read address length)
  else .error .einval

section Engine

variable (engine : ℕ → Attempt)

/-- `nt_rram_write_per_block`: one transfer, or its timeout. -/
def ntRramWritePerBlock (dst : ℕ) (wdata : Bytes) : Cmd RramState Errno Unit := fun s =>
  if (engine s.tries).done then (.ok (), { s with cells := s.cells.store dst wdata, tries := s.tries + 1 })
  else
    (.error .ebade,
      { s with cells := s.cells.store dst (((engine s.tries).left wdata).take wdata.length), tries := s.tries + 1 })

/-- The loop of `nt_rram_write_with_retry`, for the tries that are left. -/
def retryLoop (dst : ℕ) (wdata : Bytes) : ℕ → Cmd RramState Errno Unit
  | 0 => Cmd.fail .ebade
  | n + 1 => fun s =>
    match ntRramWritePerBlock engine dst wdata s with
    | (.ok _, s') => (.ok (), s')
    | (.error _, s') => retryLoop dst wdata n s'

/-- `nt_rram_write_with_retry`, at most `MAX_WRITE_TRY` times. -/
def ntRramWriteWithRetry (dst : ℕ) (wdata : Bytes) : Cmd RramState Errno Unit := retryLoop engine dst wdata 3

/-- `nt_rram_read` into `temp_r_w_buff`, its result not looked at. -/
def readToBuff (address length : ℕ) : Cmd RramState Errno Unit := Cmd.modify fun s =>
  match ntRramRead s.cells address length with
  | .ok b => { s with buff := s.buff.store 0 b }
  | .error _ => s

/-- Data put into `temp_r_w_buff`. -/
def patchBuff (index : ℕ) (b : Bytes) : Cmd RramState Errno Unit := Cmd.modify fun s =>
  { s with buff := s.buff.store index b }

/-- The first bytes of `temp_r_w_buff` written to RRAM. -/
def writeBuff (dst length : ℕ) : Cmd RramState Errno Unit := do
  let b ← Cmd.gets fun s => s.buff.read 0 length
  ntRramWriteWithRetry engine dst b

/-- A window written back with data in it. -/
def writeWindow (dst length index : ℕ) (b : Bytes) : Cmd RramState Errno Unit := do
  readToBuff dst length
  patchBuff index b
  writeBuff engine dst length

/-- The blocks of 256 bytes of the special case. -/
def specialBlocks : ℕ → ℕ → Bytes → Cmd RramState Errno Unit
  | 0, _, _ => pure ()
  | n + 1, desAdr, src => do
    patchBuff 0 (src.take 256)
    writeBuff engine desAdr 256
    specialBlocks n (u32 (desAdr + 256)) (src.drop 256)

/-- The special case: an aligned destination and a source that is not. -/
def specialCase (desAdr : ℕ) (src : Bytes) : Cmd RramState Errno Unit := do
  let fullBlockNum := src.length / 256 % 65536
  let partialBlockSize := src.length % 256
  specialBlocks engine fullBlockNum desAdr src
  if partialBlockSize ≠ 0 then
    writeWindow engine (u32 (desAdr + fullBlockNum * 256)) 256 0
      ((src.drop (fullBlockNum * 256)).take partialBlockSize)
  else pure ()

/-- The blocks of 16368 bytes. -/
def maxBlocks : ℕ → ℕ → Bytes → Cmd RramState Errno Unit
  | 0, _, _ => pure ()
  | n + 1, desAdr, src => do
    ntRramWriteWithRetry engine desAdr (src.take 16368)
    maxBlocks n (u32 (desAdr + 16368)) (src.drop 16368)

/-- The whole rows of the partial block, if it has any. -/
def wholeRows (desAdr tempNumByte : ℕ) (src : Bytes) : Cmd RramState Errno Unit :=
  if tempNumByte ≠ 0 then ntRramWriteWithRetry engine desAdr (src.take tempNumByte) else pure ()

/-- The partial block: its whole rows, then a row with the rest. -/
def partialBlock (desAdr : ℕ) (src : Bytes) : Cmd RramState Errno Unit :=
  if src.length % 16 = 0 then ntRramWriteWithRetry engine desAdr src
  else do
    let tempNumByte := src.length / 16 * 16
    wholeRows engine desAdr tempNumByte src
    writeWindow engine (u32 (desAdr + tempNumByte)) 16 0 (src.drop tempNumByte)

/-- Writing to an aligned destination from an aligned source. -/
def writeAligned (desAdr : ℕ) (src : Bytes) : Cmd RramState Errno Unit := do
  let fullBlockNum := src.length / 16368 % 65536
  let partialBlockSize := src.length % 16368
  maxBlocks engine fullBlockNum desAdr src
  if partialBlockSize ≠ 0 then
    partialBlock engine (u32 (desAdr + fullBlockNum * 16368)) ((src.drop (fullBlockNum * 16368)).take partialBlockSize)
  else pure ()

/-- The row of an unaligned destination, or the first row from an unaligned source; then the rest. -/
def writeUnaligned (dst src : ℕ) (wdata : Bytes) : Cmd RramState Errno Unit := do
  let tempNumByte := min (16 - dst % 16) wdata.length
  writeWindow engine (dst - dst % 16) 16 (dst % 16) (wdata.take tempNumByte)
  if wdata.length ≤ 16 - dst % 16 then pure ()
  else if (src + tempNumByte) % 4 ≠ 0 then
    specialCase engine (u32 (dst - dst % 16 + 16)) (wdata.drop tempNumByte)
  else writeAligned engine (u32 (dst - dst % 16 + 16)) (wdata.drop tempNumByte)

/-- `nt_rram_write`; `src` is the address of `wdata`. -/
def ntRramWrite (dst src : ℕ) (wdata : Bytes) : Cmd RramState Errno Unit := fun s =>
  if src = 0 ∨ wdata.length = 0 then (.error .einval, s)
  else if rramAddressRangeCheck s.cells dst wdata.length .writeLocked then
    if dst % 16 ≠ 0 ∨ src % 4 ≠ 0 then writeUnaligned engine dst src wdata s
    else writeAligned engine dst wdata s
  else (.error .efault, s)

end Engine

/-! ### Windows -/

/-- What `temp_r_w_buff` holds after the read of a window. -/
def window (m b : Memory) (address length : ℕ) : Memory :=
  match ntRramRead m address length with
  | .ok read => b.store 0 read
  | .error _ => b

/-- `temp_r_w_buff` after the blocks of the special case. -/
def specialBuff : ℕ → Bytes → Memory → Memory
  | 0, _, b => b
  | n + 1, src, b => specialBuff n (src.drop 256) (b.store 0 (src.take 256))

/-- The window `[a, a + w)` is read, or the buffer holds what is in it outside `[lo, hi)` anyway. -/
def RowKept (m b : Memory) (a w lo hi : ℕ) : Prop :=
  rramAddressRangeCheck m a w .readLocked = true ∨ ∀ i < w, ¬(lo ≤ a + i ∧ a + i < hi) → b i = m (a + i)

/-- The last window of data cut into pieces of `w` bytes, when the pieces before it are written. -/
def TailKept (m b : Memory) (des : ℕ) (src : Bytes) (w : ℕ) : Prop :=
  src.length % w ≠ 0 → RowKept (m.store des (src.take (src.length / w * w))) b (des + src.length / w * w) w des
    (des + src.length)

/-- Every window that `nt_rram_write` writes back holds what was there. -/
def WindowsKept (m b : Memory) (dst src : ℕ) (wdata : Bytes) : Prop :=
  if dst % 16 ≠ 0 ∨ src % 4 ≠ 0 then
    let n := min (16 - dst % 16) wdata.length
    let row := dst - dst % 16
    let left := (window m b row 16).store (dst % 16) (wdata.take n)
    RowKept m b row 16 dst (dst + wdata.length) ∧
      (16 - dst % 16 < wdata.length →
        if (src + n) % 4 ≠ 0 then
          TailKept (m.store dst (wdata.take n)) (specialBuff ((wdata.drop n).length / 256) (wdata.drop n) left) (row + 16)
            (wdata.drop n) 256
        else TailKept (m.store dst (wdata.take n)) left (row + 16) (wdata.drop n) 16)
  else TailKept m b dst wdata 16

theorem store_at {m : Memory} {a x : ℕ} {d : Bytes} (h : a ≤ x ∧ x < a + d.length) :
    m.store a d x = d.getD (x - a) 0 := if_pos h

/-- A byte of a stored window. -/
theorem window_at {m b : Memory} {a w x : ℕ} (h : a ≤ x ∧ x < a + w) : m.store a (b.read 0 w) x = b (x - a) := by
  rw [store_at (by rw [Memory.length_read]; exact h), Memory.getD_read _ (by omega), Nat.zero_add]

theorem window_out {m b : Memory} {a w x : ℕ} (h : ¬(a ≤ x ∧ x < a + w)) : m.store a (b.read 0 w) x = m x :=
  Memory.store_out (by rw [Memory.length_read]; omega)

/-- Data stored over a shorter store at the same address. -/
theorem store_cover (m : Memory) (a : ℕ) {d e : Bytes} (h : d.length ≤ e.length) :
    (m.store a d).store a e = m.store a e := by
  funext x
  by_cases hx : a ≤ x ∧ x < a + e.length
  · rw [store_at hx, store_at hx]
  · have hside : x < a ∨ a + e.length ≤ x := by omega
    rw [Memory.store_out hside, Memory.store_out hside, Memory.store_out (by omega)]

/-- A window with data put over it is the window stored and then the data. -/
theorem store_window (m b : Memory) (a w p : ℕ) {d : Bytes} (h : p + d.length ≤ w) :
    m.store a ((b.store p d).read 0 w) = (m.store a (b.read 0 w)).store (a + p) d := by
  funext x
  by_cases hw : a ≤ x ∧ x < a + w
  · rw [window_at hw]
    by_cases hp : a + p ≤ x ∧ x < a + p + d.length
    · rw [store_at (show p ≤ x - a ∧ x - a < p + d.length by omega), store_at hp]
      congr 1
      omega
    · rw [Memory.store_out (by omega), Memory.store_out (by omega), window_at hw]
  · rw [window_out hw, Memory.store_out (by omega), window_out hw]

/-- A stored window changes nothing but the data exactly when it holds what was there. -/
theorem store_window_exact (m b : Memory) {a w p : ℕ} {d : Bytes} :
    (m.store a (b.read 0 w)).store (a + p) d = m.store (a + p) d ↔
      ∀ i < w, ¬(p ≤ i ∧ i < p + d.length) → b i = m (a + i) := by
  constructor
  · intro heq i hi hout
    have hx := congrFun heq (a + i)
    have hside : a + i < a + p ∨ a + p + d.length ≤ a + i := by omega
    rw [Memory.store_out hside, Memory.store_out hside, window_at (by omega), Nat.add_sub_cancel_left] at hx
    exact hx
  · intro hkeep
    funext x
    by_cases hp : a + p ≤ x ∧ x < a + p + d.length
    · rw [store_at hp, store_at hp]
    · have hside : x < a + p ∨ a + p + d.length ≤ x := by omega
      rw [Memory.store_out hside, Memory.store_out hside]
      by_cases hw : a ≤ x ∧ x < a + w
      · rw [window_at hw, hkeep (x - a) (by omega) (by omega)]
        congr 1
        omega
      · rw [window_out hw]

/-- What the buffer holds of a window after its read, against the window. -/
theorem window_kept_iff (m b : Memory) {a w : ℕ} (hw : 0 < w) (P : ℕ → Prop) :
    (∀ i < w, P i → window m b a w i = m (a + i)) ↔
      rramAddressRangeCheck m a w .readLocked = true ∨ ∀ i < w, P i → b i = m (a + i) := by
  rw [window, ntRramRead, if_neg (by omega)]
  by_cases hc : rramAddressRangeCheck m a w .readLocked = true
  · rw [if_pos hc]
    refine iff_of_true (fun i hi _ => ?_) (.inl hc)
    have hlen : (m.read a w).length = w := Memory.length_read _ _ _
    have hin := Memory.store_in (m := b) (a := 0) (show i < (m.read a w).length by omega)
    rw [Nat.zero_add] at hin
    exact hin.trans (Memory.getD_read m hi)
  · rw [if_neg hc, or_iff_right hc]

/-! ### What a completed command leaves

    `Does f c`: if the command `c` returns 0, RRAM and the buffer are as `f` says; and it returns 0 on an engine
    that completes every transfer. -/

/-- RRAM and `temp_r_w_buff`. -/
abbrev Image := Memory × Memory

/-- The image of a state. -/
def RramState.image (s : RramState) : Image := (s.cells, s.buff)

section Engine

variable (engine : ℕ → Attempt)

/-- The effect of a command that returns 0. -/
def Does (f : Image → Image) (c : Cmd RramState Errno Unit) : Prop :=
  ∀ s, ((∀ k, (engine k).done = true) → (c s).1 = .ok ()) ∧ ((c s).1 = .ok () → (c s).2.image = f s.image)

variable {engine} {f g : Image → Image} {c c' : Cmd RramState Errno Unit}

theorem Does.nothing (hf : ∀ i, f i = i) : Does engine f (pure ()) := fun s => ⟨fun _ => rfl, fun _ => (hf s.image).symm⟩

theorem Does.modify {h : RramState → RramState} (hf : ∀ s, (h s).image = f s.image) : Does engine f (Cmd.modify h) :=
  fun s => ⟨fun _ => rfl, fun _ => hf s⟩

theorem Does.bind (h : Does engine f c) (h' : Does engine g c') : Does engine (g ∘ f) (c >>= fun _ => c') := by
  intro s
  rcases hc : c s with ⟨e | u, s'⟩
  · have hs := h s
    rw [hc] at hs
    rw [Cmd.bind_error hc]
    exact ⟨fun hd => absurd (hs.1 hd) (by simp), fun hok => absurd hok (by simp)⟩
  · have hs := (h s).2
    rw [hc] at hs
    rw [Cmd.bind_ok hc]
    refine ⟨(h' s').1, fun hok => ?_⟩
    rw [(h' s').2 hok, hs rfl]
    rfl

theorem retryLoop_succ (dst : ℕ) (wdata : Bytes) (n : ℕ) (s : RramState) : retryLoop engine dst wdata (n + 1) s =
    match ntRramWritePerBlock engine dst wdata s with
    | (.ok _, s') => (.ok (), s')
    | (.error _, s') => retryLoop engine dst wdata n s' := rfl

theorem retryLoop_done {s : RramState} (dst : ℕ) (wdata : Bytes) (n : ℕ) (hd : (engine s.tries).done = true) :
    retryLoop engine dst wdata (n + 1) s =
      (.ok (), { s with cells := s.cells.store dst wdata, tries := s.tries + 1 }) := by
  have hone : ntRramWritePerBlock engine dst wdata s =
      (.ok (), { s with cells := s.cells.store dst wdata, tries := s.tries + 1 }) := if_pos hd
  rw [retryLoop_succ, hone]

theorem retryLoop_late {s : RramState} (dst : ℕ) (wdata : Bytes) (n : ℕ) (hd : ¬(engine s.tries).done = true) :
    retryLoop engine dst wdata (n + 1) s = retryLoop engine dst wdata n { s with
      cells := s.cells.store dst (((engine s.tries).left wdata).take wdata.length), tries := s.tries + 1 } := by
  have hone : ntRramWritePerBlock engine dst wdata s = (.error .ebade, { s with
      cells := s.cells.store dst (((engine s.tries).left wdata).take wdata.length), tries := s.tries + 1 }) := if_neg hd
  rw [retryLoop_succ, hone]

theorem retryLoop_does (dst : ℕ) (wdata : Bytes) (n : ℕ) :
    Does engine (fun i => (i.1.store dst wdata, i.2)) (retryLoop engine dst wdata (n + 1)) := by
  induction n with
  | zero =>
    intro s
    by_cases hd : (engine s.tries).done = true
    · rw [retryLoop_done dst wdata 0 hd]
      exact ⟨fun _ => rfl, fun _ => rfl⟩
    · rw [retryLoop_late dst wdata 0 hd, retryLoop]
      exact ⟨fun hall => absurd (hall _) hd, fun hok => absurd hok (by simp)⟩
  | succ n ih =>
    intro s
    by_cases hd : (engine s.tries).done = true
    · rw [retryLoop_done dst wdata (n + 1) hd]
      exact ⟨fun _ => rfl, fun _ => rfl⟩
    · -- what an unfinished transfer has written is written again
      rw [retryLoop_late dst wdata (n + 1) hd]
      refine ⟨(ih _).1, fun hok => ?_⟩
      rw [(ih _).2 hok]
      simp only [RramState.image]
      rw [store_cover _ _ (List.length_take_le _ _)]

variable (engine) in
theorem ntRramWriteWithRetry_does (dst : ℕ) (wdata : Bytes) :
    Does engine (fun i => (i.1.store dst wdata, i.2)) (ntRramWriteWithRetry engine dst wdata) :=
  retryLoop_does dst wdata 2

variable (engine) in
theorem readToBuff_does (a n : ℕ) : Does engine (fun i => (i.1, window i.1 i.2 a n)) (readToBuff a n) := by
  refine Does.modify fun s => ?_
  simp only [RramState.image, window]
  cases ntRramRead s.cells a n <;> rfl

variable (engine) in
theorem patchBuff_does (index : ℕ) (b : Bytes) :
    Does engine (fun i => (i.1, i.2.store index b)) (patchBuff index b) := Does.modify fun _ => rfl

variable (engine) in
theorem writeBuff_does (dst n : ℕ) :
    Does engine (fun i => (i.1.store dst (i.2.read 0 n), i.2)) (writeBuff engine dst n) := fun s =>
  ntRramWriteWithRetry_does engine dst (s.buff.read 0 n) s

variable (engine) in
/-- A window is stored as read or left, and then the data. -/
theorem writeWindow_does (dst n : ℕ) {i : ℕ} {b : Bytes} (h : i + b.length ≤ n) :
    Does engine (fun im => ((im.1.store dst ((window im.1 im.2 dst n).read 0 n)).store (dst + i) b,
      (window im.1 im.2 dst n).store i b)) (writeWindow engine dst n i b) := by
  have hall := (readToBuff_does engine dst n).bind ((patchBuff_does engine i b).bind (writeBuff_does engine dst n))
  refine fun s => ⟨(hall s).1, fun hok => ((hall s).2 hok).trans ?_⟩
  simp only [Function.comp, store_window _ _ _ _ _ h]

variable (engine) in
theorem specialBlocks_does (n des : ℕ) (src : Bytes) (hn : n * 256 ≤ src.length) (hlt : des + src.length < 2 ^ 32) :
    Does engine (fun i => (i.1.store des (src.take (n * 256)), specialBuff n src i.2))
      (specialBlocks engine n des src) := by
  induction n generalizing des src with
  | zero =>
    refine Does.nothing fun i => ?_
    rw [Nat.zero_mul, List.take_zero, Memory.store_nil]
    rfl
  | succ n ih =>
    have hmul : (n + 1) * 256 = 256 + n * 256 := by omega
    rw [hmul] at hn ⊢
    have hlen : (src.take 256).length = 256 := by rw [List.length_take]; omega
    have hrest : (src.drop 256).length = src.length - 256 := List.length_drop
    have hend : des + 256 < 2 ^ 32 := by omega
    have hu : u32 (des + 256) = des + 256 := u32_of_lt hend
    have hdrop : n * 256 ≤ (src.drop 256).length := by
      rw [hrest]
      exact Nat.le_sub_of_add_le' hn
    have hlt' : des + 256 + (src.drop 256).length < 2 ^ 32 := by
      rw [hrest]
      omega
    have htail := ih _ _ hdrop hlt'
    have hall := (patchBuff_does engine 0 (src.take 256)).bind ((writeBuff_does engine des 256).bind htail)
    rw [specialBlocks, hu]
    refine fun s => ⟨(hall s).1, fun hok => ((hall s).2 hok).trans ?_⟩
    simp only [Function.comp, specialBuff]
    have hread : (s.buff.store 0 (src.take 256)).read 0 256 = src.take 256 := by
      have := Memory.read_store s.buff 0 (src.take 256)
      rwa [hlen] at this
    have hjoin := Memory.store_append s.cells des (src.take 256) ((src.drop 256).take (n * 256))
    rw [hlen, ← List.take_add] at hjoin
    simp only [RramState.image, hread, hjoin]

variable (engine) in
theorem maxBlocks_does (n des : ℕ) (src : Bytes) (hn : n * 16368 ≤ src.length) (hlt : des + src.length < 2 ^ 32) :
    Does engine (fun i => (i.1.store des (src.take (n * 16368)), i.2)) (maxBlocks engine n des src) := by
  induction n generalizing des src with
  | zero =>
    refine Does.nothing fun i => ?_
    rw [Nat.zero_mul, List.take_zero, Memory.store_nil]
  | succ n ih =>
    have hmul : (n + 1) * 16368 = 16368 + n * 16368 := by omega
    rw [hmul] at hn ⊢
    have hlen : (src.take 16368).length = 16368 := by rw [List.length_take]; omega
    have hrest : (src.drop 16368).length = src.length - 16368 := List.length_drop
    have hend : des + 16368 < 2 ^ 32 := by omega
    have hu : u32 (des + 16368) = des + 16368 := u32_of_lt hend
    have hdrop : n * 16368 ≤ (src.drop 16368).length := by
      rw [hrest]
      exact Nat.le_sub_of_add_le' hn
    have hlt' : des + 16368 + (src.drop 16368).length < 2 ^ 32 := by
      rw [hrest]
      omega
    have htail := ih _ _ hdrop hlt'
    have hall := (ntRramWriteWithRetry_does engine des (src.take 16368)).bind htail
    rw [maxBlocks, hu]
    refine fun s => ⟨(hall s).1, fun hok => ((hall s).2 hok).trans ?_⟩
    have hjoin := Memory.store_append s.cells des (src.take 16368) ((src.drop 16368).take (n * 16368))
    rw [hlen, ← List.take_add] at hjoin
    simp only [Function.comp, RramState.image, hjoin]

end Engine

/-! ### The whole write -/

/-- Data written in pieces of `w` bytes; the last window is written back as it was read. -/
def putTail (m b : Memory) (des : ℕ) (src : Bytes) (w : ℕ) : Memory :=
  let k := src.length / w * w
  let first := m.store des (src.take k)
  if src.length % w = 0 then first
  else (first.store (des + k) ((window first b (des + k) w).read 0 w)).store (des + k) (src.drop k)

theorem putTail_whole (m b : Memory) (des : ℕ) {src : Bytes} {w : ℕ} (h : src.length % w = 0) :
    putTail m b des src w = m.store des src := by
  have hk : src.length / w * w = src.length := Nat.div_mul_cancel (Nat.dvd_of_mod_eq_zero h)
  rw [putTail, if_pos h, hk, List.take_length]

/-- Whole pieces may be written first. -/
theorem putTail_append (m b : Memory) (des : ℕ) {a : Bytes} (c : Bytes) {w : ℕ} (hw : 0 < w) (h : a.length % w = 0) :
    putTail (m.store des a) b (des + a.length) c w = putTail m b des (a ++ c) w := by
  obtain ⟨j, hj⟩ := Nat.dvd_of_mod_eq_zero h
  have hdiv : (a ++ c).length / w * w = a.length + c.length / w * w := by
    rw [List.length_append, hj, Nat.mul_add_div hw, Nat.add_mul, Nat.mul_comm w j]
  have hmod : (a ++ c).length % w = c.length % w := by
    rw [List.length_append, Nat.add_mod, h, Nat.zero_add, Nat.mod_mod]
  have hdrop : (a ++ c).drop (a.length + c.length / w * w) = c.drop (c.length / w * w) := by
    rw [← List.drop_drop, List.drop_left]
  rw [putTail, putTail, hdiv, hmod, List.take_length_add_append, ← Memory.store_append, hdrop, Nat.add_assoc]

/-- RRAM after `nt_rram_write` has returned 0. -/
def written (m b : Memory) (dst src : ℕ) (wdata : Bytes) : Memory :=
  if dst % 16 ≠ 0 ∨ src % 4 ≠ 0 then
    let n := min (16 - dst % 16) wdata.length
    let row := dst - dst % 16
    let left := (window m b row 16).store (dst % 16) (wdata.take n)
    let first := (m.store row ((window m b row 16).read 0 16)).store dst (wdata.take n)
    if wdata.length ≤ 16 - dst % 16 then first
    else if (src + n) % 4 ≠ 0 then
      putTail first (specialBuff ((wdata.drop n).length / 256) (wdata.drop n) left) (row + 16) (wdata.drop n) 256
    else putTail first left (row + 16) (wdata.drop n) 16
  else putTail m b dst wdata 16

section Engine

variable (engine : ℕ → Attempt)

/-- What a command that returns 0 leaves in RRAM. -/
def Leaves (f : Memory → Memory → Memory) (c : Cmd RramState Errno Unit) : Prop :=
  ∀ s, ((∀ k, (engine k).done = true) → (c s).1 = .ok ()) ∧ ((c s).1 = .ok () → (c s).2.cells = f s.cells s.buff)

variable {engine} {f : Image → Image} {g : Memory → Memory → Memory} {c c' : Cmd RramState Errno Unit}

theorem Does.leaves (h : Does engine f c) : Leaves engine (fun m b => (f (m, b)).1) c := fun s =>
  ⟨(h s).1, fun hok => congrArg Prod.fst ((h s).2 hok)⟩

theorem Does.then (h : Does engine f c) (h' : Leaves engine g c') :
    Leaves engine (fun m b => g (f (m, b)).1 (f (m, b)).2) (c >>= fun _ => c') := by
  intro s
  have hs := h s
  rcases hc : c s with ⟨e | u, s'⟩
  · rw [hc] at hs
    rw [Cmd.bind_error hc]
    exact ⟨fun hd => absurd (hs.1 hd) (by simp), fun hok => absurd hok (by simp)⟩
  · rw [hc] at hs
    rw [Cmd.bind_ok hc]
    refine ⟨(h' s').1, fun hok => ?_⟩
    rw [(h' s').2 hok]
    have hi : (s'.cells, s'.buff) = f s.image := hs.2 rfl
    exact congrArg (fun i : Image => g i.1 i.2) hi

theorem Leaves.congr {g' : Memory → Memory → Memory} (h : Leaves engine g c) (hg : ∀ m b, g m b = g' m b) :
    Leaves engine g' c := fun s => ⟨(h s).1, fun hok => ((h s).2 hok).trans (hg _ _)⟩

theorem Leaves.nothing (hg : ∀ m b, g m b = m) : Leaves engine g (pure ()) := fun s =>
  ⟨fun _ => rfl, fun _ => (hg s.cells s.buff).symm⟩

variable (engine) in
theorem wholeRows_does (des k : ℕ) (src : Bytes) :
    Does engine (fun i => (i.1.store des (src.take k), i.2)) (wholeRows engine des k src) := by
  rw [wholeRows]
  by_cases hz : k = 0
  · rw [if_neg (not_not.mpr hz), hz, List.take_zero]
    exact Does.nothing fun i => by rw [Memory.store_nil]
  · rw [if_pos hz]
    exact ntRramWriteWithRetry_does engine des _

theorem partialBlock_leaves (des : ℕ) (src : Bytes) (hlt : des + src.length < 2 ^ 32) :
    Leaves engine (fun m b => putTail m b des src 16) (partialBlock engine des src) := by
  rw [partialBlock]
  by_cases h0 : src.length % 16 = 0
  · rw [if_pos h0]
    exact (ntRramWriteWithRetry_does engine des src).leaves.congr fun m b => (putTail_whole m b des h0).symm
  · rw [if_neg h0]
    have hk : u32 (des + src.length / 16 * 16) = des + src.length / 16 * 16 := u32_of_lt (by omega)
    have hrest : 0 + (src.drop (src.length / 16 * 16)).length ≤ 16 := by
      rw [List.length_drop]
      omega
    have hall := (wholeRows_does engine des (src.length / 16 * 16) src).then (writeWindow_does engine (des + src.length / 16 * 16) 16 hrest).leaves
    simp only
    rw [hk]
    refine hall.congr fun m b => ?_
    rw [putTail]
    simp only [Nat.add_zero]
    rw [if_neg h0]

theorem writeAligned_leaves (des : ℕ) (src : Bytes) (hlen : src.length < 16777216)
    (hlt : des + src.length < 2 ^ 32) :
    Leaves engine (fun m b => putTail m b des src 16) (writeAligned engine des src) := by
  have hfull : src.length / 16368 % 65536 = src.length / 16368 := Nat.mod_eq_of_lt (by omega)
  have hle : src.length / 16368 * 16368 ≤ src.length := Nat.div_mul_le_self _ _
  set k := src.length / 16368 * 16368 with hk
  have hrest : (src.drop k).length = src.length % 16368 := by
    rw [List.length_drop]
    omega
  have htake : (src.take k).length = k := by
    rw [List.length_take]
    omega
  have hu : u32 (des + k) = des + k := u32_of_lt (by omega)
  have hblocks := maxBlocks_does engine (src.length / 16368) des src hle hlt
  rw [← hk] at hblocks
  have hjoin : ∀ m b, putTail (m.store des (src.take k)) b (des + k) (src.drop k) 16 = putTail m b des src 16 := by
    intro m b
    have := putTail_append m b des (src.drop k) (show 0 < 16 by decide) (a := src.take k) (by rw [htake]; omega)
    rwa [htake, List.take_append_drop] at this
  have hlast : Leaves engine (fun m b => putTail m b (des + k) (src.drop k) 16)
      (if src.length % 16368 ≠ 0 then partialBlock engine (des + k) (src.drop k) else pure ()) := by
    by_cases h0 : src.length % 16368 = 0
    · rw [if_neg (not_not.mpr h0)]
      have hnil : src.drop k = [] := List.length_eq_zero_iff.mp (by omega)
      exact Leaves.nothing fun m b => by rw [hnil, putTail_whole _ _ _ rfl, Memory.store_nil]
    · rw [if_pos h0]
      exact partialBlock_leaves _ _ (by omega)
  rw [writeAligned, hfull, ← hk, hu, List.take_of_length_le (by omega : (src.drop k).length ≤ src.length % 16368)]
  exact (hblocks.then hlast).congr hjoin

theorem specialCase_leaves (des : ℕ) (src : Bytes) (hlen : src.length < 16777216) (hlt : des + src.length < 2 ^ 32) :
    Leaves engine (fun m b => putTail m (specialBuff (src.length / 256) src b) des src 256)
      (specialCase engine des src) := by
  have hfull : src.length / 256 % 65536 = src.length / 256 := Nat.mod_eq_of_lt (by omega)
  have hle : src.length / 256 * 256 ≤ src.length := Nat.div_mul_le_self _ _
  have hblocks := specialBlocks_does engine (src.length / 256) des src hle hlt
  have hu : u32 (des + src.length / 256 * 256) = des + src.length / 256 * 256 := u32_of_lt (by omega)
  have hrest : 0 + (src.drop (src.length / 256 * 256)).length ≤ 256 := by
    rw [List.length_drop]
    omega
  rw [specialCase, hfull, hu, List.take_of_length_le (by rw [List.length_drop]; omega)]
  by_cases h0 : src.length % 256 = 0
  · rw [if_neg (not_not.mpr h0)]
    refine (hblocks.then (Does.nothing fun _ => rfl).leaves).congr fun m b => ?_
    rw [putTail]
    rw [if_pos h0]
  · rw [if_pos h0]
    refine (hblocks.then (writeWindow_does engine _ 256 hrest).leaves).congr fun m b => ?_
    rw [putTail]
    simp only [Nat.add_zero]
    rw [if_neg h0]

theorem writeUnaligned_leaves (dst src : ℕ) (wdata : Bytes) (hsrc : dst % 16 ≠ 0 ∨ src % 4 ≠ 0)
    (hlen : wdata.length < 16777216) (hlt : dst + wdata.length < 4294967280) :
    Leaves engine (fun m b => written m b dst src wdata) (writeUnaligned engine dst src wdata) := by
  set n := min (16 - dst % 16) wdata.length with hn
  have hoff : dst % 16 < 16 := Nat.mod_lt _ (by decide)
  have htake : (wdata.take n).length = n := by
    rw [List.length_take]
    omega
  have hrow : dst - dst % 16 + dst % 16 = dst := Nat.sub_add_cancel (Nat.mod_le _ _)
  have hhead := writeWindow_does engine (dst - dst % 16) 16 (i := dst % 16) (b := wdata.take n)
    (by rw [htake]; omega)
  rw [hrow] at hhead
  have hu : u32 (dst - dst % 16 + 16) = dst - dst % 16 + 16 := u32_of_lt (by omega)
  have hdrop : (wdata.drop n).length = wdata.length - n := List.length_drop
  rw [writeUnaligned, ← hn, hu]
  by_cases hone : wdata.length ≤ 16 - dst % 16
  · rw [if_pos hone]
    refine (hhead.then (Leaves.nothing fun _ _ => rfl)).congr fun m b => ?_
    rw [written, if_pos hsrc, if_pos hone]
  · rw [if_neg hone]
    by_cases hspecial : (src + n) % 4 ≠ 0
    · rw [if_pos hspecial]
      refine (hhead.then (specialCase_leaves _ _ (by omega) (by omega))).congr fun m b => ?_
      rw [written, if_pos hsrc, if_neg hone, ← hn, if_pos hspecial]
    · rw [if_neg hspecial]
      refine (hhead.then (writeAligned_leaves _ _ (by omega) (by omega))).congr fun m b => ?_
      rw [written, if_pos hsrc, if_neg hone, ← hn, if_neg hspecial]

/-- An accepted range that does not wrap around ends in main RRAM or before it. -/
theorem check_bound {m : Memory} {a l : ℕ} {access : PerStatus} (hlt : a + l < 2 ^ 32)
    (h : rramAddressRangeCheck m a l access = true) : a + l < 0x380000 := by
  rw [rramAddressRangeCheck_eq, u32_of_lt hlt] at h
  by_cases hb : MemRramOtpAddrChk a ∧ MemRramOtpAddrChk (a + l)
  · have := otpChk_iff.mp hb.2
    omega
  · rw [if_neg hb, decide_eq_true_eq] at h
    exact (mainChk_iff.mp h.2).2

/-- What `nt_rram_write` leaves when it returns 0, for a range that does not wrap around. -/
theorem ntRramWrite_cells {s : RramState} {dst src : ℕ} {wdata : Bytes} (hlt : dst + wdata.length < 2 ^ 32)
    (hok : (ntRramWrite engine dst src wdata s).1 = .ok ()) :
    (ntRramWrite engine dst src wdata s).2.cells = written s.cells s.buff dst src wdata := by
  rw [ntRramWrite] at hok ⊢
  by_cases h0 : src = 0 ∨ wdata.length = 0
  · rw [if_pos h0] at hok
    exact absurd hok (by simp)
  rw [if_neg h0] at hok ⊢
  by_cases hc : rramAddressRangeCheck s.cells dst wdata.length .writeLocked = true
  · have hb := check_bound hlt hc
    rw [if_pos hc] at hok ⊢
    by_cases hu : dst % 16 ≠ 0 ∨ src % 4 ≠ 0
    · rw [if_pos hu] at hok ⊢
      exact (writeUnaligned_leaves dst src wdata hu (by omega) (by omega) s).2 hok
    · rw [if_neg hu] at hok ⊢
      rw [written, if_neg hu]
      exact (writeAligned_leaves dst wdata (by omega) (by omega) s).2 hok
  · rw [if_neg hc] at hok
    exact absurd hok (by simp)

/-- On an engine that completes every transfer, every accepted write returns 0. -/
theorem ntRramWrite_ok {s : RramState} {dst src : ℕ} {wdata : Bytes} (hd : ∀ k, (engine k).done = true)
    (hlt : dst + wdata.length < 2 ^ 32) (h0 : ¬(src = 0 ∨ wdata.length = 0))
    (hc : rramAddressRangeCheck s.cells dst wdata.length .writeLocked = true) :
    (ntRramWrite engine dst src wdata s).1 = .ok () := by
  have hb := check_bound hlt hc
  rw [ntRramWrite, if_neg h0, if_pos hc]
  by_cases hu : dst % 16 ≠ 0 ∨ src % 4 ≠ 0
  · rw [if_pos hu]
    exact (writeUnaligned_leaves dst src wdata hu (by omega) (by omega) s).1 hd
  · rw [if_neg hu]
    exact (writeAligned_leaves dst wdata (by omega) (by omega) s).1 hd

end Engine

/-! ### Exactness -/

/-- A row is kept as it was exactly when it was read or the buffer holds it anyway. -/
theorem rowKept_iff (m b : Memory) {a w p : ℕ} {d : Bytes} (hw : 0 < w) (lo hi : ℕ)
    (hlo : lo ≤ a + p ∧ ∀ i < p, a + i < lo) (hhi : hi = a + p + d.length) :
    (m.store a ((window m b a w).read 0 w)).store (a + p) d = m.store (a + p) d ↔ RowKept m b a w lo hi := by
  rw [store_window_exact, window_kept_iff m b hw, RowKept]
  refine or_congr_right (forall₂_congr fun i hi' => ?_)
  have hside : (p ≤ i ∧ i < p + d.length) ↔ (lo ≤ a + i ∧ a + i < hi) := by
    rcases Nat.lt_or_ge i p with hip | hip
    · have := hlo.2 i hip
      omega
    · omega
  rw [hside]

theorem putTail_exact (m b : Memory) (des : ℕ) (src : Bytes) {w : ℕ} (hw : 0 < w) :
    putTail m b des src w = m.store des src ↔ TailKept m b des src w := by
  by_cases h0 : src.length % w = 0
  · exact iff_of_true (putTail_whole m b des h0) fun h => absurd h0 h
  · set k := src.length / w * w with hk
    have hle : k ≤ src.length := Nat.div_mul_le_self _ _
    have hrest : (src.drop k).length = src.length % w := by
      rw [List.length_drop, hk, Nat.mod_eq_sub_div_mul]
    have hmod := Nat.mod_lt src.length hw
    have hsum : k + src.length % w = src.length := Nat.div_add_mod' _ _
    have htake : (src.take k).length = k := by
      rw [List.length_take]
      omega
    have hall := Memory.store_append m des (src.take k) (src.drop k)
    rw [htake, List.take_append_drop] at hall
    have hkept := rowKept_iff (m.store des (src.take k)) b (a := des + k) (w := w) (p := 0) (d := src.drop k)
      hw des (des + src.length) ⟨by omega, fun i hi => absurd hi (Nat.not_lt_zero i)⟩ (by omega)
    rw [Nat.add_zero, hall] at hkept
    rw [putTail, TailKept, ← hk, if_neg h0, hkept]
    exact ⟨fun h _ => h, fun h => h h0⟩

/-- Nothing before the data is touched by it. -/
theorem putTail_before (m b : Memory) {des : ℕ} (src : Bytes) (w : ℕ) {x : ℕ} (hx : x < des) :
    putTail m b des src w x = m x := by
  rw [putTail]
  by_cases h0 : src.length % w = 0
  · rw [if_pos h0, Memory.store_out (.inl hx)]
  · rw [if_neg h0, Memory.store_out (.inl (by omega)), Memory.store_out (.inl (by omega)), Memory.store_out (.inl hx)]

/-- What `nt_rram_write` leaves is the old content with the data in it exactly when every window is kept. -/
theorem written_exact (m b : Memory) (dst src : ℕ) (wdata : Bytes) :
    written m b dst src wdata = m.store dst wdata ↔ WindowsKept m b dst src wdata := by
  rw [written, WindowsKept]
  by_cases hu : dst % 16 ≠ 0 ∨ src % 4 ≠ 0
  swap
  · rw [if_neg hu, if_neg hu]
    exact putTail_exact m b dst wdata (by decide)
  rw [if_pos hu, if_pos hu]
  simp only
  set n := min (16 - dst % 16) wdata.length with hn
  set row := dst - dst % 16 with hrow
  have hmod : dst % 16 < 16 := Nat.mod_lt _ (by decide)
  have hle : dst % 16 ≤ dst := Nat.mod_le _ _
  have hadd : row + dst % 16 = dst := Nat.sub_add_cancel hle
  have htake : (wdata.take n).length = n := by
    rw [List.length_take]
    omega
  have hhead := rowKept_iff m b (a := row) (w := 16) (p := dst % 16) (d := wdata.take n)
    (by decide) dst (dst + n) ⟨by omega, fun i hi => by omega⟩ (by rw [htake, hadd])
  rw [hadd] at hhead
  by_cases hone : wdata.length ≤ 16 - dst % 16
  · -- the data lies in one row
    have hall : n = wdata.length := min_eq_right hone
    rw [hall, List.take_length] at hhead
    rw [if_pos hone, hall, List.take_length, hhead]
    exact ⟨fun h => ⟨h, fun h' => absurd hone (not_le.mpr h')⟩, And.left⟩
  · rw [if_neg hone]
    have hnlt : n = 16 - dst % 16 := min_eq_left (by omega)
    have hnext : row + 16 = dst + n := by omega
    have hjoin : (m.store dst (wdata.take n)).store (row + 16) (wdata.drop n) = m.store dst wdata := by
      have := Memory.store_append m dst (wdata.take n) (wdata.drop n)
      rwa [htake, List.take_append_drop, ← hnext] at this
    -- the rest of the data leaves the bytes before it, so the head row has to be right by itself
    have hfirst : ∀ (b' : Memory) (w : ℕ), putTail ((m.store row ((window m b row 16).read 0 16)).store dst
        (wdata.take n)) b' (row + 16) (wdata.drop n) w = m.store dst wdata →
        (m.store row ((window m b row 16).read 0 16)).store dst (wdata.take n) = m.store dst (wdata.take n) := by
      intro b' w heq
      funext x
      rcases Nat.lt_or_ge x (row + 16) with hx | hx
      · have hx' := congrFun heq x
        rw [putTail_before _ _ _ _ hx] at hx'
        rw [hx', ← hjoin, Memory.store_out (.inl hx)]
      · have hside : x < dst ∨ dst + (wdata.take n).length ≤ x := by
          rw [htake]
          omega
        rw [Memory.store_out hside, Memory.store_out hside, window_out (by omega)]
    have hkeep : RowKept m b row 16 dst (dst + n) ↔ RowKept m b row 16 dst (dst + wdata.length) := by
      rw [RowKept, RowKept]
      refine or_congr_right (forall₂_congr fun i hi => ?_)
      have hside : (dst ≤ row + i ∧ row + i < dst + n) ↔ (dst ≤ row + i ∧ row + i < dst + wdata.length) := by omega
      rw [hside]
    have hboth : ∀ (b' : Memory) (w : ℕ), 0 < w →
        (putTail ((m.store row ((window m b row 16).read 0 16)).store dst (wdata.take n)) b' (row + 16)
          (wdata.drop n) w = m.store dst wdata ↔ RowKept m b row 16 dst (dst + wdata.length) ∧
          TailKept (m.store dst (wdata.take n)) b' (row + 16) (wdata.drop n) w) := by
      intro b' w hw
      constructor
      · intro heq
        have hf := hfirst b' w heq
        rw [hf, ← hjoin] at heq
        exact ⟨hkeep.mp (hhead.mp hf), (putTail_exact _ b' _ _ hw).mp heq⟩
      · rintro ⟨hrowk, htail⟩
        rw [hhead.mpr (hkeep.mpr hrowk), (putTail_exact _ b' _ _ hw).mpr htail, hjoin]
    have hlt := not_le.mp hone
    by_cases hspecial : (src + n) % 4 ≠ 0
    · rw [if_pos hspecial, if_pos hspecial, hboth _ 256 (by decide)]
      exact and_congr_right fun _ => ⟨fun h _ => h, fun h => h hlt⟩
    · rw [if_neg hspecial, if_neg hspecial, hboth _ 16 (by decide)]
      exact and_congr_right fun _ => ⟨fun h _ => h, fun h => h hlt⟩

/-- The write passes the checks at the start of `nt_rram_write`. -/
def Accepted (m : Memory) (dst src length : ℕ) : Prop :=
  ¬(src = 0 ∨ length = 0) ∧ rramAddressRangeCheck m dst length .writeLocked = true

instance (m : Memory) (dst src n : ℕ) : Decidable (Accepted m dst src n) := inferInstanceAs (Decidable (_ ∧ _))

theorem Accepted.of_ok {engine : ℕ → Attempt} {s : RramState} {dst src : ℕ} {wdata : Bytes}
    (h : (ntRramWrite engine dst src wdata s).1 = .ok ()) : Accepted s.cells dst src wdata.length := by
  rw [ntRramWrite] at h
  by_cases h0 : src = 0 ∨ wdata.length = 0
  · rw [if_pos h0] at h
    exact absurd h (by simp)
  · rw [if_neg h0] at h
    refine ⟨h0, ?_⟩
    by_contra hc
    rw [if_neg hc] at h
    exact absurd h (by simp)

theorem Accepted.start {m : Memory} {dst src n : ℕ} (h : Accepted m dst src n) : dst < 0x380000 := by
  have hc := h.2
  rw [rramAddressRangeCheck_eq] at hc
  by_cases hb : MemRramOtpAddrChk dst ∧ MemRramOtpAddrChk (u32 (dst + n))
  · have := otpChk_iff.mp hb.1
    omega
  · rw [if_neg hb, decide_eq_true_eq] at hc
    exact (mainChk_iff.mp hc.1).2

/-- A source in the 32-bit address space, apart from the destination, leaves no room for a range that wraps. -/
theorem Accepted.no_wrap {m : Memory} {dst src n : ℕ} (h : Accepted m dst src n) (hsrc : src + n ≤ 2 ^ 32)
    (hapart : src + n ≤ dst ∨ dst + n ≤ src) : dst + n < 2 ^ 32 := by
  have := h.start
  have := h.1
  omega

/-- An engine that completes every transfer. -/
abbrev steadyEngine : ℕ → Attempt := fun _ => ⟨true, id⟩

/-- A range that starts in main RRAM, and whose 32-bit end is in main RRAM, is accepted. -/
theorem check_main_ends (m : Memory) {a l : ℕ} (access : PerStatus) (h₁ : MemRramMainAddrChk a)
    (h₂ : MemRramMainAddrChk (u32 (a + l))) : rramAddressRangeCheck m a l access = true := by
  have hno : ¬(MemRramOtpAddrChk a ∧ MemRramOtpAddrChk (u32 (a + l))) := fun h => by
    have := otpChk_iff.mp h.1
    have := (mainChk_iff.mp h₁).1
    omega
  rw [rramAddressRangeCheck_eq, if_neg hno, decide_eq_true_eq]
  exact ⟨h₁, h₂⟩

/-- Inside main RRAM a range may be accessed, if main RRAM does not end with it. -/
theorem check_main (m : Memory) {a l : ℕ} (access : PerStatus) (h₁ : 0x200000 ≤ a) (h₂ : a + l < 0x380000) :
    rramAddressRangeCheck m a l access = true := by
  refine check_main_ends m access (mainChk_iff.mpr ⟨h₁, by omega⟩) ?_
  rw [u32_of_lt (by omega), mainChk_iff]
  exact ⟨by omega, h₂⟩

theorem tailKept_main (m b : Memory) {des : ℕ} {src : Bytes} {w : ℕ} (h₁ : 0x200000 ≤ des)
    (h₂ : des + src.length + w ≤ 0x380000) : TailKept m b des src w := by
  intro h0
  have hsum : src.length / w * w + src.length % w = src.length := Nat.div_add_mod' _ _
  exact .inl (check_main _ _ (by omega) (by omega))

/-- Far enough from the end of main RRAM every window is read. -/
theorem windowsKept_main (m b : Memory) {dst : ℕ} (src : ℕ) {wdata : Bytes} (h₁ : 0x200000 ≤ dst)
    (h₂ : dst + wdata.length + 256 ≤ 0x380000) : WindowsKept m b dst src wdata := by
  have hmod : dst % 16 < 16 := Nat.mod_lt _ (by decide)
  have hdrop : (wdata.drop (min (16 - dst % 16) wdata.length)).length =
      wdata.length - min (16 - dst % 16) wdata.length := List.length_drop
  rw [WindowsKept]
  by_cases hu : dst % 16 ≠ 0 ∨ src % 4 ≠ 0
  · rw [if_pos hu]
    refine ⟨.inl (check_main _ _ (by omega) (by omega)), fun hlong => ?_⟩
    by_cases hspecial : (src + min (16 - dst % 16) wdata.length) % 4 ≠ 0
    · rw [if_pos hspecial]
      exact tailKept_main _ _ (by omega) (by rw [hdrop]; omega)
    · rw [if_neg hspecial]
      exact tailKept_main _ _ (by omega) (by rw [hdrop]; omega)
  · rw [if_neg hu]
    exact tailKept_main _ _ h₁ (by omega)

/-- An accepted write replaces exactly its range, on every engine that makes it return 0, if and only if every
    window it writes back could be read, or `temp_r_w_buff` held the same bytes. -/
theorem rram_write_exact_iff (m b : Memory) (dst src : ℕ) (wdata : Bytes) (hsrc : src + wdata.length ≤ 2 ^ 32)
    (hapart : src + wdata.length ≤ dst ∨ dst + wdata.length ≤ src) :
    (∀ (engine : ℕ → Attempt) (t : ℕ), (ntRramWrite engine dst src wdata ⟨m, b, t⟩).1 = .ok () →
      (ntRramWrite engine dst src wdata ⟨m, b, t⟩).2.cells = m.store dst wdata) ↔
    (Accepted m dst src wdata.length → WindowsKept m b dst src wdata) := by
  constructor
  · intro hexact hacc
    have hlt := hacc.no_wrap hsrc hapart
    have hok : (ntRramWrite steadyEngine dst src wdata ⟨m, b, 0⟩).1 = .ok () :=
      ntRramWrite_ok (fun _ => rfl) hlt hacc.1 hacc.2
    have hcells := hexact _ 0 hok
    rw [ntRramWrite_cells hlt hok] at hcells
    exact (written_exact m b dst src wdata).mp hcells
  · intro hkept engine t hok
    have hacc : Accepted m dst src wdata.length := Accepted.of_ok hok
    rw [ntRramWrite_cells (hacc.no_wrap hsrc hapart) hok]
    exact (written_exact m b dst src wdata).mpr (hkept hacc)

/-- Three bytes near the start of main RRAM are written as they should be. -/
theorem rram_write_exact_first :
    (ntRramWrite steadyEngine 0x200001 0x1000 [1, 2, 3] ⟨openRram, openRram, 0⟩).2.cells =
      openRram.store 0x200001 [1, 2, 3] := by
  have hok : (ntRramWrite steadyEngine 0x200001 0x1000 [1, 2, 3] ⟨openRram, openRram, 0⟩).1 = .ok () := by
    decide +kernel
  have hiff := rram_write_exact_iff openRram openRram 0x200001 0x1000 [1, 2, 3] (by decide) (by decide)
  exact hiff.mpr (fun _ => windowsKept_main _ _ _ (by decide) (by decide)) steadyEngine 0 hok

/-- RRAM with every byte 1. -/
def onesRram : Memory := fun _ => 1

/-- The last word but two of main RRAM: the row could not be read, so the bytes before the word are replaced by
    what `temp_r_w_buff` held. -/
theorem rram_write_spoils_last_row :
    ¬∀ (engine : ℕ → Attempt) (t : ℕ), (ntRramWrite engine 0x37FFF4 0x1000 [2, 2, 2, 2] ⟨onesRram, openRram, t⟩).1 = .ok () →
      (ntRramWrite engine 0x37FFF4 0x1000 [2, 2, 2, 2] ⟨onesRram, openRram, t⟩).2.cells =
        onesRram.store 0x37FFF4 [2, 2, 2, 2] := by
  intro h
  have hok : (ntRramWrite steadyEngine 0x37FFF4 0x1000 [2, 2, 2, 2] ⟨onesRram, openRram, 0⟩).1 = .ok () := by
    decide +kernel
  have hbyte : (ntRramWrite steadyEngine 0x37FFF4 0x1000 [2, 2, 2, 2] ⟨onesRram, openRram, 0⟩).2.cells 0x37FFF0 =
      0 := by decide +kernel
  rw [h _ 0 hok, Memory.store_out (.inl (by decide))] at hbyte
  exact absurd hbyte (by decide)

end Qcc730.Rram
