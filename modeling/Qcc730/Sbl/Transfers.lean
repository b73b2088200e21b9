import Qcc730.Sbl.Copies

/-! The transfers the RRAM writes issue (`nt_bl_rram_dxe.c`), and the loads that rest on them.

    `Sbl.Dxe` says what the functions leave in RRAM. Here they run on the engine itself, which also keeps the
    transfers it was given: each of them starts at a 16-byte address, is a multiple of 16 bytes long and fits
    one descriptor. The load from flash (`bl_elf_flash_read_to_rram_dxe`) prints a write that fails and goes
    on, so its result speaks about the reads only. -/

namespace Qcc730.Sbl
open Lib Flash

/-! ### The engine -/

/-- RRAM and the transfers issued to it, oldest first. -/
structure Engine where
  rram : Memory
  transfers : List Range

/-- What one descriptor may move. -/
def IsTransfer (t : Range) : Prop := t.start % 16 = 0 ∧ t.size % 16 = 0 ∧ t.size ≤ 0x3FF0

instance (t : Range) : Decidable (IsTransfer t) := inferInstanceAs (Decidable (_ ∧ _ ∧ _))

namespace Engine

/-- `rram_block_write_dxe`. -/
def rramBlockWriteDxe (destination : ℕ) (source : Bytes) : Cmd Engine BlError Unit := fun e =>
  if destination % 16 ≠ 0 then (.error .rramDxeInvalidBlockAddr, e)
  else if source.length % 16 ≠ 0 then (.error .rramDxeInvalidBlockAddr, e)
  else (.ok (), ⟨e.rram.store destination source, e.transfers ++ [⟨destination, source.length⟩]⟩)

/-- `rram_write_unaligned_dxe`. -/
def rramWriteUnalignedDxe (destination : ℕ) (source : Bytes) : Cmd Engine BlError Unit := do
  let offset := destination % 16
  let written := Dxe.headLength destination source.length
  let before ← Cmd.gets fun e => e.rram.read (destination - offset) offset
  let after ← Cmd.gets fun e => e.rram.read (destination + written) (16 - offset - written)
  rramBlockWriteDxe (destination - offset) (before ++ source.take written ++ after)

/-- The loop over the `n` full blocks. -/
def fullBlocks : ℕ → ℕ → Bytes → Cmd Engine BlError Unit
  | 0, _, _ => pure ()
  | n + 1, dst, src => do
    rramBlockWriteDxe dst (src.take 0x3FF0)
    fullBlocks n (dst + 0x3FF0) (src.drop 0x3FF0)

/-- The partial block. -/
def partialBlock (dst : ℕ) (src : Bytes) : Cmd Engine BlError Unit := do
  let aligned := src.length - src.length % 16
  let rest := src.length % 16
  -- with fewer than 16 bytes left this is a transfer of length 0
  rramBlockWriteDxe dst (src.take aligned)
  if rest ≠ 0 then do
    let after ← Cmd.gets fun e => e.rram.read (dst + aligned + rest) (16 - rest)
    rramBlockWriteDxe (dst + aligned) (src.drop aligned ++ after)
  else pure ()

/-- `rram_write_dxe` past the head. -/
def alignedBlocks (dst : ℕ) (src : Bytes) : Cmd Engine BlError Unit := do
  let full := src.length / 0x3FF0
  fullBlocks full dst src
  if src.length % 0x3FF0 ≠ 0 then partialBlock (dst + full * 0x3FF0) (src.drop (full * 0x3FF0)) else pure ()

/-- `rram_write_dxe`. -/
def rramWriteDxe (destination : ℕ) (source : Bytes) : Cmd Engine BlError Unit :=
  if rramVerifyAddress destination source.length then
    if destination % 16 ≠ 0 then do
      let written := Dxe.headLength destination source.length
      rramWriteUnalignedDxe destination source
      if source.length ≤ written then pure ()
      else alignedBlocks (destination + written) (source.drop written)
    else alignedBlocks destination source
  else Cmd.fail .rramDxeInvalidAddr

/-- The loop of `rram_memset_dxe`; the fuel is at least the number of passes. -/
def setLoop (value : UInt8) : ℕ → ℕ → ℕ → Cmd Engine BlError Unit
  | 0, _, _ => pure ()
  | n + 1, dst, length =>
    if length = 0 then pure ()
    else do
      rramWriteDxe dst (List.replicate (min 4096 length) value)
      setLoop value n (dst + min 4096 length) (length - min 4096 length)

/-- `rram_memset_dxe`. -/
def rramMemsetDxe (address : ℕ) (value : UInt8) (length : ℕ) : Cmd Engine BlError Unit :=
  if rramVerifyAddress address length then
    if address % 16 ≠ 0 then do
      let written := Dxe.headLength address (min 16 length)
      rramWriteUnalignedDxe address (List.replicate (min 16 length) value)
      if length ≤ written then pure ()
      else setLoop value length (address + written) (length - written)
    else setLoop value length address length
  else Cmd.fail .rramDxeInvalidAddr

/-! ### The engine against the memory

    `Runs e c r`: from `e` the command ends as the function of `Sbl.Dxe` with result `r`, and everything it
    issued is a transfer. -/

/-- The engine after a command, against the result on the memory alone. -/
def Runs (e : Engine) (c : Cmd Engine BlError Unit) (r : Except BlError Memory) : Prop :=
  ∃ ts, (∀ t ∈ ts, IsTransfer t) ∧ (c e).2.transfers = e.transfers ++ ts ∧
    match r with
    | .ok m => (c e).1 = .ok () ∧ (c e).2.rram = m
    | .error b => (c e).1 = .error b

variable {e : Engine} {c : Cmd Engine BlError Unit}

theorem Runs.pure (e : Engine) : Runs e (pure ()) (.ok e.rram) :=
  ⟨[], fun _ ht => absurd ht List.not_mem_nil, (List.append_nil _).symm, rfl, rfl⟩

theorem Runs.fail (e : Engine) (b : BlError) : Runs e (Cmd.fail b) (.error b) :=
  ⟨[], fun _ ht => absurd ht List.not_mem_nil, (List.append_nil _).symm, rfl⟩

/-- The next function of `Sbl.Dxe`, if the one before it returned a memory. -/
def after (r : Except BlError Memory) (k : Memory → Except BlError Memory) : Except BlError Memory :=
  match r with
  | .error b => .error b
  | .ok m => k m

/-- Two commands in a row; the second starts in the memory the first left. -/
theorem Runs.bind {c' : Cmd Engine BlError Unit} {r : Except BlError Memory}
    {k : Memory → Except BlError Memory} (h : Runs e c r) (hk : ∀ e' : Engine, Runs e' c' (k e'.rram)) :
    Runs e (c >>= fun _ => c') (after r k) := by
  obtain ⟨ts, hts, htr, hr⟩ := h
  cases r with
  | error b =>
    have hc : c e = (.error b, (c e).2) := Prod.ext hr rfl
    refine ⟨ts, hts, ?_, ?_⟩
    · rw [Cmd.bind_error hc, htr]
    · show (_ : Except _ _ × _).1 = _
      rw [Cmd.bind_error hc]
  | ok m =>
    obtain ⟨hok, rfl⟩ := hr
    have hc : c e = (.ok (), (c e).2) := Prod.ext hok rfl
    obtain ⟨ts', hts', htr', hr'⟩ := hk (c e).2
    unfold Runs
    rw [Cmd.bind_ok hc]
    refine ⟨ts ++ ts', fun t ht => ?_, ?_, hr'⟩
    · exact (List.mem_append.mp ht).elim (hts t) (hts' t)
    · rw [htr', htr, List.append_assoc]

/-- One transfer, if the data fits a descriptor. -/
theorem rramBlockWriteDxe_runs (e : Engine) (dst : ℕ) {src : Bytes} (hs : src.length ≤ 0x3FF0) :
    Runs e (rramBlockWriteDxe dst src) (Dxe.rramBlockWriteDxe e.rram dst src) := by
  unfold Runs
  rw [rramBlockWriteDxe, Dxe.rramBlockWriteDxe]
  by_cases hd : dst % 16 = 0
  · by_cases hl : src.length % 16 = 0
    · rw [if_neg (not_not.mpr hd), if_neg (not_not.mpr hl), if_neg (not_not.mpr hd), if_neg (not_not.mpr hl)]
      refine ⟨[⟨dst, src.length⟩], fun t ht => ?_, rfl, rfl, rfl⟩
      rw [List.mem_singleton.mp ht]
      exact ⟨hd, hl, hs⟩
    · rw [if_neg (not_not.mpr hd), if_pos hl, if_neg (not_not.mpr hd), if_pos hl]
      exact Runs.fail e _
  · rw [if_pos hd, if_pos hd]
    exact Runs.fail e _

theorem rramWriteUnalignedDxe_runs (e : Engine) (dst : ℕ) (src : Bytes) :
    Runs e (rramWriteUnalignedDxe dst src) (Dxe.rramWriteUnalignedDxe e.rram dst src) := by
  refine rramBlockWriteDxe_runs e _ ?_
  have hfit := Dxe.headLength_fits dst src.length
  simp only [List.length_append, Memory.length_read, List.length_take]
  omega

theorem fullBlocks_runs : ∀ (n : ℕ) (e : Engine) (dst : ℕ) (src : Bytes),
    Runs e (fullBlocks n dst src) (Dxe.fullBlocks n e.rram dst src)
  | 0, e, _, _ => Runs.pure e
  | n + 1, e, dst, src => by
    have hfirst := rramBlockWriteDxe_runs e dst (List.length_take_le 0x3FF0 src)
    have hall := hfirst.bind (k := fun m => Dxe.fullBlocks n m (dst + 0x3FF0) (src.drop 0x3FF0)) fun e' =>
      fullBlocks_runs n e' (dst + 0x3FF0) (src.drop 0x3FF0)
    rw [fullBlocks, Dxe.fullBlocks]
    exact hall

theorem partialBlock_runs (e : Engine) (dst : ℕ) {src : Bytes} (hs : src.length ≤ 0x3FF0) :
    Runs e (partialBlock dst src) (Dxe.partialBlock e.rram dst src) := by
  have hshort : (src.take (src.length - src.length % 16)).length ≤ 0x3FF0 := (List.length_take_le' _ _).trans hs
  refine (rramBlockWriteDxe_runs e dst hshort).bind fun e' => ?_
  by_cases h0 : src.length % 16 ≠ 0
  · rw [if_pos h0, if_pos h0]
    refine rramBlockWriteDxe_runs e' _ ?_
    simp only [List.length_append, Memory.length_read, List.length_drop]
    omega
  · rw [if_neg h0, if_neg h0]
    exact Runs.pure e'

theorem alignedBlocks_runs (e : Engine) (dst : ℕ) (src : Bytes) :
    Runs e (alignedBlocks dst src) (Dxe.alignedBlocks e.rram dst src) := by
  refine (fullBlocks_runs _ e dst src).bind fun e' => ?_
  by_cases h0 : src.length % 0x3FF0 ≠ 0
  · rw [if_pos h0, if_pos h0]
    refine partialBlock_runs e' _ ?_
    rw [List.length_drop]
    omega
  · rw [if_neg h0, if_neg h0]
    exact Runs.pure e'

theorem rramWriteDxe_runs (e : Engine) (dst : ℕ) (src : Bytes) :
    Runs e (rramWriteDxe dst src) (Dxe.rramWriteDxe e.rram dst src) := by
  rw [rramWriteDxe, Dxe.rramWriteDxe]
  by_cases hv : rramVerifyAddress dst src.length = true
  · rw [if_pos hv, if_pos hv]
    by_cases ha : dst % 16 ≠ 0
    · rw [if_pos ha, if_pos ha]
      refine (rramWriteUnalignedDxe_runs e dst src).bind fun e' => ?_
      by_cases hl : src.length ≤ Dxe.headLength dst src.length
      · rw [if_pos hl, if_pos hl]
        exact Runs.pure e'
      · rw [if_neg hl, if_neg hl]
        exact alignedBlocks_runs e' _ _
    · rw [if_neg ha, if_neg ha]
      exact alignedBlocks_runs e _ _
  · rw [if_neg hv, if_neg hv]
    exact Runs.fail e _

theorem setLoop_runs (v : UInt8) : ∀ (n : ℕ) (e : Engine) (dst len : ℕ),
    Runs e (setLoop v n dst len) (Dxe.setLoop v n e.rram dst len)
  | 0, e, _, _ => Runs.pure e
  | n + 1, e, dst, len => by
    rw [setLoop, Dxe.setLoop]
    by_cases h0 : len = 0
    · rw [if_pos h0, if_pos h0]
      exact Runs.pure e
    · rw [if_neg h0, if_neg h0]
      exact (rramWriteDxe_runs e dst _).bind fun e' => setLoop_runs v n e' _ _

theorem rramMemsetDxe_runs (e : Engine) (a : ℕ) (v : UInt8) (len : ℕ) :
    Runs e (rramMemsetDxe a v len) (Dxe.rramMemsetDxe e.rram a v len) := by
  rw [rramMemsetDxe, Dxe.rramMemsetDxe]
  by_cases hv : rramVerifyAddress a len = true
  · rw [if_pos hv, if_pos hv]
    by_cases ha : a % 16 ≠ 0
    · rw [if_pos ha, if_pos ha]
      refine (rramWriteUnalignedDxe_runs e a _).bind fun e' => ?_
      by_cases hl : len ≤ Dxe.headLength a (min 16 len)
      · rw [if_pos hl, if_pos hl]
        exact Runs.pure e'
      · rw [if_neg hl, if_neg hl]
        exact setLoop_runs v _ e' _ _
    · rw [if_neg ha, if_neg ha]
      exact setLoop_runs v _ e _ _
  · rw [if_neg hv, if_neg hv]
    exact Runs.fail e _

/-- A run that is one store on the memory is that store on the engine. -/
theorem Runs.store {a : ℕ} {b : Bytes} (h : Runs e c (.ok (e.rram.store a b))) :
    ∃ ts, (∀ t ∈ ts, IsTransfer t) ∧ c e = (.ok (), ⟨e.rram.store a b, e.transfers ++ ts⟩) := by
  obtain ⟨ts, hts, htr, hok, hm⟩ := h
  refine ⟨ts, hts, Prod.ext hok ?_⟩
  rw [← hm, ← htr]

/-- Every accepted write and set replaces exactly its range, by transfers that fit the engine. -/
theorem rram_dxe_exact (e : Engine) (a : ℕ) :
    (∀ src : Bytes, ∃ ts, (∀ t ∈ ts, IsTransfer t) ∧ rramWriteDxe a src e =
      if rramVerifyAddress a src.length then (.ok (), ⟨e.rram.store a src, e.transfers ++ ts⟩)
      else (.error .rramDxeInvalidAddr, e)) ∧
    ∀ (v : UInt8) (len : ℕ), ∃ ts, (∀ t ∈ ts, IsTransfer t) ∧ rramMemsetDxe a v len e =
      if rramVerifyAddress a len then (.ok (), ⟨e.rram.store a (List.replicate len v), e.transfers ++ ts⟩)
      else (.error .rramDxeInvalidAddr, e) := by
  refine ⟨fun src => ?_, fun v len => ?_⟩
  · by_cases hv : rramVerifyAddress a src.length = true
    · have hrun := rramWriteDxe_runs e a src
      rw [Dxe.rramWriteDxe_eq, if_pos hv] at hrun
      obtain ⟨ts, hts, hend⟩ := hrun.store
      exact ⟨ts, hts, hend.trans (if_pos hv).symm⟩
    · refine ⟨[], fun _ ht => absurd ht List.not_mem_nil, ?_⟩
      rw [if_neg hv, rramWriteDxe, if_neg hv, Cmd.fail_apply]
  · by_cases hv : rramVerifyAddress a len = true
    · have hrun := rramMemsetDxe_runs e a v len
      rw [Dxe.rramMemsetDxe_eq, if_pos hv] at hrun
      obtain ⟨ts, hts, hend⟩ := hrun.store
      exact ⟨ts, hts, hend.trans (if_pos hv).symm⟩
    · refine ⟨[], fun _ ht => absurd ht List.not_mem_nil, ?_⟩
      rw [if_neg hv, rramMemsetDxe, if_neg hv, Cmd.fail_apply]

end Engine

/-! ### A load whose writes fail -/

/-- `boot_sbl_rram_write`: its status, and what RRAM holds afterwards. -/
abbrev RramWrite := ℕ → Bytes → Memory → Except BlError Unit × Memory

/-- `rram_write_dxe` on an engine that completes every transfer. -/
def RramWrite.dxe : RramWrite := fun destination source m =>
  match Dxe.rramWriteDxe m destination source with
  | .ok m => (.ok (), m)
  | .error e => (.error e, m)

/-- A piece put in place through `write`; a status that is not 0 is printed. -/
def Boot.putThrough (write : RramWrite) (dst : ℕ) (b : Bytes) (s : Boot) : Boot :=
  { s with rram := (write dst b s.rram).2 }

/-- `bl_elf_flash_read_to_rram_dxe` over a write that may fail. -/
def blElfFlashReadToRramDxeOver (write : RramWrite) (address data bytes : ℕ) : Cmd Boot BlError Unit :=
  flashCopy (Boot.putThrough write) address data bytes

/-- Over `rram_write_dxe` it is the routine of `Sbl.Copies`. -/
theorem blElfFlashReadToRramDxe_eq_over (address data bytes : ℕ) :
    blElfFlashReadToRramDxe address data bytes = blElfFlashReadToRramDxeOver .dxe address data bytes := by
  rw [blElfFlashReadToRramDxe, blElfFlashReadToRramDxeOver]
  congr 1
  funext dst b s
  rw [Boot.putRram, Boot.putThrough, RramWrite.dxe]
  cases Dxe.rramWriteDxe s.rram dst b <;> rfl

/-- The write of every piece succeeds, each in the RRAM the ones before it left. -/
def WritesPieces (write : RramWrite) (flash : Memory) (nvmAdd data : ℕ) : List (ℕ × ℕ) → Memory → Prop
  | [], _ => True
  | (o, n) :: cs, m =>
    (write (data + o) (flash.read (u32 (nvmAdd + o)) n) m).1 = .ok () ∧
      WritesPieces write flash nvmAdd data cs (write (data + o) (flash.read (u32 (nvmAdd + o)) n) m).2

/-- The load returns no error exactly when every piece is read, whatever happens to the writes. -/
theorem flashReadToRramDxe_none_iff (write : RramWrite) (address data bytes : ℕ) (s : Boot) :
    (blElfFlashReadToRramDxeOver write address data bytes s).1 = .ok () ↔
      s.ReadsPieces (u32sub address appImageFlashAddress) (chunks bytes) := by
  have hput : ∀ a b s, Boot.SameFlash s (s.putThrough write a b) := fun _ _ _ => ⟨rfl, rfl, rfl⟩
  rw [blElfFlashReadToRramDxeOver, flashCopy_eq]
  constructor
  · intro hok
    exact ((copyPieces_ok_iff hput _ data (chunks bytes) s _).mp (Prod.ext hok rfl)).1
  · intro hr
    rw [(copyPieces_ok_iff hput _ data (chunks bytes) s _).mpr ⟨hr, rfl⟩]

/-- No error means that every piece was read and written, unless all pieces are read and some write fails. -/
theorem flashReadToRramDxe_reports_iff (write : RramWrite) (address data bytes : ℕ) (s : Boot) :
    ((blElfFlashReadToRramDxeOver write address data bytes s).1 = .ok () →
      s.ReadsPieces (u32sub address appImageFlashAddress) (chunks bytes) ∧
        WritesPieces write s.flash (u32sub address appImageFlashAddress) data (chunks bytes) s.rram) ↔
    (s.ReadsPieces (u32sub address appImageFlashAddress) (chunks bytes) →
      WritesPieces write s.flash (u32sub address appImageFlashAddress) data (chunks bytes) s.rram) := by
  rw [flashReadToRramDxe_none_iff]
  exact ⟨fun h hr => (h hr).2, fun h hr => ⟨hr, h hr⟩⟩

/-- A load to an address that is not a multiple of four writes nothing and returns no error. -/
theorem flash_load_hides_failed_write :
    ¬((blElfFlashReadToRramDxeOver .dxe 0xA00000 0x200002 100 smallBoot).1 = .ok () →
      smallBoot.ReadsPieces (u32sub 0xA00000 appImageFlashAddress) (chunks 100) ∧
        WritesPieces .dxe smallBoot.flash (u32sub 0xA00000 appImageFlashAddress) 0x200002 (chunks 100)
          smallBoot.rram) := by
  intro h
  have hrun : (blElfFlashReadToRramDxeOver .dxe 0xA00000 0x200002 100 smallBoot).1 = .ok () := by decide
  obtain ⟨hfirst, -⟩ := (h hrun).2
  exact absurd hfirst (by decide)

end Qcc730.Sbl
