import Qcc730.Sbl.Dxe

/-! The copy routines of the ELF loader (`boot_elf_mem.c`), against one copy of the whole range.

    Each routine goes over its range 2048 bytes at a time. Both flash routines stop their loop while more
    than one chunk is left and read the rest at the end; the one into RRAM does not look at the result of
    its writes. The routine from RRAM to RAM goes on until the counter has passed the byte count: its last
    chunk runs past the end of the range. -/

namespace Qcc730.Sbl
open Lib Flash

/-- The memories of the boot loader. -/
structure Boot where
  ram : Memory
  rram : Memory
  flash : Memory
  densityInBlocks : ℕ
  /-- `rram_address_range_check` for reading -/
  rramOk : ℕ → ℕ → Bool
  /-- flash transfers that the controller does not complete -/
  flashFault : ℕ → ℕ → Bool

/-- `nt_bl_rram_read` into RAM. -/
def ntBlRramRead (address rdata length : ℕ) : Cmd Boot BlError Unit := fun s =>
  if length = 0 then (.error .rramRead, s)
  else if s.rramOk address length then (.ok (), { s with ram := s.ram.store rdata (s.rram.read address length) })
  else (.error .rramRead, s)

/-- `drv_flash_read` returns the bytes. -/
def Boot.FlashReads (s : Boot) (address byteCnt : ℕ) : Prop :=
  byteCnt ≠ 0 ∧ ¬u32 (address + byteCnt) < address ∧ ¬u32 (address + byteCnt) > u32 (s.densityInBlocks * 4096) ∧
    s.flashFault address byteCnt = false

instance (s : Boot) (a n : ℕ) : Decidable (s.FlashReads a n) := inferInstanceAs (Decidable (_ ∧ _ ∧ _ ∧ _))

/-- `boot_sbl_flash_read`. -/
def bootSblFlashRead (address byteCnt : ℕ) : Cmd Boot BlError Bytes := fun s =>
  if s.FlashReads address byteCnt then (.ok (s.flash.read address byteCnt), s) else (.error .elfMemRead, s)

/-! ### The routines -/

/-- The loop of `bl_elf_rram_read_to_ram`; it makes `bytes / 2048 + 1` passes. -/
def rramToRamLoop (address data bytes : ℕ) : ℕ → ℕ → Cmd Boot BlError ℕ
  | 0, done => pure done
  | n + 1, done =>
    if done ≤ bytes then do
      (ntBlRramRead (address + done) (data + done) 2048).orFail .elfMemRead
      rramToRamLoop address data bytes n (done + 2048)
    else pure done

/-- `bl_elf_rram_read_to_ram`. For the last 2048 byte counts the 32-bit counter never exceeds the count. -/
def blElfRramReadToRam (address data bytes : ℕ) : Cmd Boot BlError Unit :=
  if 2048 < bytes then do
    let done ← rramToRamLoop address data bytes (bytes / 2048 + 1) 0
    if 2 ^ 32 - 2048 ≤ bytes then Cmd.fail .hang
    else
      let lastBytes := if bytes < done then 2048 - (done - bytes) else 0
      let done := if bytes < done then done - 2048 else done
      if lastBytes ≠ 0 then (ntBlRramRead (address + done) (data + done) lastBytes).orFail .elfMemRead
      else pure ()
  else if bytes ≠ 0 then (ntBlRramRead address data bytes).orFail .elfMemRead
  else pure ()

/-- One piece of a copy from flash: read it and put it in place. -/
def flashPiece (put : ℕ → Bytes → Boot → Boot) (nvmAdd data done n : ℕ) : Cmd Boot BlError Unit := do
  let temp ← bootSblFlashRead (u32 (nvmAdd + done)) n
  Cmd.modify (put (data + done) temp)

/-- The loop of the copies from flash; the fuel is at least the number of full chunks. -/
def flashLoop (put : ℕ → Bytes → Boot → Boot) (nvmAdd data bytes : ℕ) : ℕ → ℕ → Cmd Boot BlError ℕ
  | 0, done => pure done
  | n + 1, done =>
    if done ≤ bytes ∧ 2048 < bytes - done then do
      flashPiece put nvmAdd data done 2048
      flashLoop put nvmAdd data bytes n (done + 2048)
    else pure done

/-- A copy from flash that puts each piece in place with `put`. -/
def flashCopy (put : ℕ → Bytes → Boot → Boot) (address data bytes : ℕ) : Cmd Boot BlError Unit := do
  let nvmAdd := u32sub address appImageFlashAddress
  let done ← if 2048 < bytes then flashLoop put nvmAdd data bytes (bytes / 2048) 0 else pure 0
  if bytes - done ≠ 0 then flashPiece put nvmAdd data done (bytes - done) else pure ()

/-- `memscpy` to RAM. -/
def Boot.putRam (dst : ℕ) (b : Bytes) (s : Boot) : Boot := { s with ram := s.ram.store dst b }

/-- `bl_elf_flash_read_to_ram`. -/
def blElfFlashReadToRam (address data bytes : ℕ) : Cmd Boot BlError Unit :=
  flashCopy Boot.putRam address data bytes

/-- `boot_sbl_rram_write` with its status dropped. -/
def Boot.putRram (dst : ℕ) (b : Bytes) (s : Boot) : Boot :=
  match Dxe.rramWriteDxe s.rram dst b with
  | .ok rram => { s with rram }
  | .error _ => s

/-- `bl_elf_flash_read_to_rram_dxe`. -/
def blElfFlashReadToRramDxe (address data bytes : ℕ) : Cmd Boot BlError Unit :=
  flashCopy Boot.putRram address data bytes

/-! ### Pieces -/

/-- The pieces `[done, bytes)` is cut into. -/
def pieces (bytes : ℕ) : ℕ → ℕ → List (ℕ × ℕ)
  | 0, done => if bytes - done ≠ 0 then [(done, bytes - done)] else []
  | n + 1, done =>
    if done ≤ bytes ∧ 2048 < bytes - done then (done, 2048) :: pieces bytes n (done + 2048)
    else if bytes - done ≠ 0 then [(done, bytes - done)] else []

/-- The pieces of a range of `bytes` bytes. -/
def chunks (bytes : ℕ) : List (ℕ × ℕ) := pieces bytes (bytes / 2048) 0

/-- The pieces lie side by side from `done` to `bytes`. -/
inductive Tiles (bytes : ℕ) : ℕ → List (ℕ × ℕ) → Prop
  | nil : Tiles bytes bytes []
  | cons {done n : ℕ} {cs : List (ℕ × ℕ)} (hn : 0 < n) (hb : done + n ≤ bytes) (h : Tiles bytes (done + n) cs) :
    Tiles bytes done ((done, n) :: cs)

theorem pieces_tiles (bytes : ℕ) : ∀ (n done : ℕ), done ≤ bytes → Tiles bytes done (pieces bytes n done)
  | 0, done, h => by
    rw [pieces]
    split
    · refine .cons (by omega) (by omega) ?_
      rw [Nat.add_sub_cancel' h]
      exact .nil
    · obtain rfl : done = bytes := by omega
      exact .nil
  | n + 1, done, h => by
    rw [pieces]
    split
    · rename_i hc
      exact .cons (by decide) (by omega) (pieces_tiles bytes n _ (by omega))
    · split
      · refine .cons (by omega) (by omega) ?_
        rw [Nat.add_sub_cancel' h]
        exact .nil
      · obtain rfl : done = bytes := by omega
        exact .nil

theorem chunks_tiles (bytes : ℕ) : Tiles bytes 0 (chunks bytes) := pieces_tiles bytes _ 0 (Nat.zero_le _)

/-- The pieces start at multiples of 2048. -/
theorem pieces_aligned (bytes : ℕ) : ∀ (n done : ℕ), done % 2048 = 0 → ∀ o k, (o, k) ∈ pieces bytes n done →
    o % 2048 = 0
  | 0, done, hd, o, k, hm => by
    rw [pieces] at hm
    split at hm
    · obtain ⟨rfl, -⟩ := Prod.mk.inj (List.mem_singleton.mp hm)
      exact hd
    · cases hm
  | n + 1, done, hd, o, k, hm => by
    rw [pieces] at hm
    split at hm
    · rcases List.mem_cons.mp hm with heq | hm
      · obtain ⟨rfl, -⟩ := Prod.mk.inj heq
        exact hd
      · exact pieces_aligned bytes n _ (by omega) o k hm
    · split at hm
      · obtain ⟨rfl, -⟩ := Prod.mk.inj (List.mem_singleton.mp hm)
        exact hd
      · cases hm

theorem chunks_aligned (bytes o k : ℕ) (hm : (o, k) ∈ chunks bytes) : o % 2048 = 0 :=
  pieces_aligned bytes _ 0 rfl o k hm

/-- Each piece is a piece of the range. -/
theorem Tiles.mem {bytes done : ℕ} {cs : List (ℕ × ℕ)} (h : Tiles bytes done cs) {o n : ℕ} (hm : (o, n) ∈ cs) :
    done ≤ o ∧ 0 < n ∧ o + n ≤ bytes := by
  induction h with
  | nil => cases hm
  | cons hn hb h ih =>
    rcases List.mem_cons.mp hm with heq | hm
    · obtain ⟨rfl, rfl⟩ := Prod.mk.inj heq
      exact ⟨le_refl _, hn, hb⟩
    · have := ih hm
      omega

/-- Copy the pieces one after the other. -/
def copyPieces (put : ℕ → Bytes → Boot → Boot) (nvmAdd data : ℕ) : List (ℕ × ℕ) → Cmd Boot BlError Unit
  | [] => pure ()
  | (o, n) :: cs => do
    flashPiece put nvmAdd data o n
    copyPieces put nvmAdd data cs

section Flash

variable (put : ℕ → Bytes → Boot → Boot) (nvmAdd data bytes : ℕ)

theorem lastPiece_eq (done : ℕ) (s : Boot) :
    (if bytes - done ≠ 0 then flashPiece put nvmAdd data done (bytes - done) else pure ()) s =
      copyPieces put nvmAdd data (if bytes - done ≠ 0 then [(done, bytes - done)] else []) s := by
  split
  · rw [copyPieces, Cmd.bind_apply]
    rcases flashPiece put nvmAdd data done (bytes - done) s with ⟨_ | _, s'⟩ <;> rfl
  · rfl

/-- The loop and the last read go over the pieces. -/
theorem flashLoop_pieces (n done : ℕ) (s : Boot) :
    (flashLoop put nvmAdd data bytes n done >>= fun done =>
      if bytes - done ≠ 0 then flashPiece put nvmAdd data done (bytes - done) else pure ()) s =
    copyPieces put nvmAdd data (pieces bytes n done) s := by
  induction n generalizing done s with
  | zero =>
    rw [flashLoop, pieces, Cmd.bind_ok (Cmd.pure_apply done s)]
    exact lastPiece_eq put nvmAdd data bytes done s
  | succ n ih =>
    rw [flashLoop, pieces]
    by_cases hc : done ≤ bytes ∧ 2048 < bytes - done
    · rw [if_pos hc, if_pos hc, copyPieces]
      rcases hp : flashPiece put nvmAdd data done 2048 s with ⟨e | u, s'⟩
      · rw [Cmd.bind_error (Cmd.bind_error hp), Cmd.bind_error hp]
      · rw [Cmd.bind_ok hp, ← ih]
        rw [Cmd.bind_apply, Cmd.bind_ok hp, Cmd.bind_apply]
    · rw [if_neg hc, if_neg hc, Cmd.bind_ok (Cmd.pure_apply done s)]
      exact lastPiece_eq put nvmAdd data bytes done s

/-- A copy from flash goes over the chunks of its range. -/
theorem flashCopy_eq (address : ℕ) (s : Boot) : flashCopy put address data bytes s =
    copyPieces put (u32sub address appImageFlashAddress) data (chunks bytes) s := by
  rw [chunks, ← flashLoop_pieces, flashCopy]
  by_cases h : 2048 < bytes
  · rw [if_pos h]
  · have hloop : ∀ n, flashLoop put (u32sub address appImageFlashAddress) data bytes n 0 = pure 0 := by
      intro n
      cases n with
      | zero => rfl
      | succ n => rw [flashLoop, if_neg (by omega)]
    rw [if_neg h, hloop]

end Flash

/-! ### Copying the pieces -/

/-- Every piece of the copy is read. -/
def Boot.ReadsPieces (s : Boot) (nvmAdd : ℕ) (cs : List (ℕ × ℕ)) : Prop :=
  ∀ o n, (o, n) ∈ cs → s.FlashReads (u32 (nvmAdd + o)) n

/-- The flash and what its reads depend on. -/
def Boot.SameFlash (s s' : Boot) : Prop :=
  s'.flash = s.flash ∧ s'.densityInBlocks = s.densityInBlocks ∧ s'.flashFault = s.flashFault

theorem Boot.SameFlash.reads {s s' : Boot} (h : s.SameFlash s') {a n : ℕ} : s'.FlashReads a n ↔ s.FlashReads a n := by
  rw [FlashReads, FlashReads, h.2.1, h.2.2]

theorem flashPiece_ok {put : ℕ → Bytes → Boot → Boot} {nvmAdd data o n : ℕ} {s : Boot}
    (h : s.FlashReads (u32 (nvmAdd + o)) n) :
    flashPiece put nvmAdd data o n s = (.ok (), put (data + o) (s.flash.read (u32 (nvmAdd + o)) n) s) := by
  have hread : bootSblFlashRead (u32 (nvmAdd + o)) n s = (.ok (s.flash.read (u32 (nvmAdd + o)) n), s) := if_pos h
  rw [flashPiece, Cmd.bind_ok hread]
  rfl

theorem flashPiece_error {put : ℕ → Bytes → Boot → Boot} {nvmAdd data o n : ℕ} {s : Boot}
    (h : ¬s.FlashReads (u32 (nvmAdd + o)) n) : flashPiece put nvmAdd data o n s = (.error .elfMemRead, s) := by
  have hread : bootSblFlashRead (u32 (nvmAdd + o)) n s = (.error .elfMemRead, s) := if_neg h
  rw [flashPiece, Cmd.bind_error hread]

/-- The state after all pieces are put in place. -/
def placeAll (put : ℕ → Bytes → Boot → Boot) (flash : Memory) (nvmAdd data : ℕ) : List (ℕ × ℕ) → Boot → Boot
  | [], s => s
  | (o, n) :: cs, s => placeAll put flash nvmAdd data cs (put (data + o) (flash.read (u32 (nvmAdd + o)) n) s)

/-- A copy succeeds exactly when all its pieces are read, and then they are all put in place. -/
theorem copyPieces_ok_iff {put : ℕ → Bytes → Boot → Boot} (hput : ∀ a b s, Boot.SameFlash s (put a b s))
    (nvmAdd data : ℕ) (cs : List (ℕ × ℕ)) (s s' : Boot) :
    copyPieces put nvmAdd data cs s = (.ok (), s') ↔
      s.ReadsPieces nvmAdd cs ∧ s' = placeAll put s.flash nvmAdd data cs s := by
  induction cs generalizing s with
  | nil =>
    rw [copyPieces, Cmd.pure_apply, Prod.mk.injEq, placeAll]
    exact ⟨fun h => ⟨fun _ _ hm => absurd hm List.not_mem_nil, h.2.symm⟩, fun h => ⟨rfl, h.2.symm⟩⟩
  | cons c cs ih =>
    obtain ⟨o, n⟩ := c
    rw [copyPieces]
    by_cases hr : s.FlashReads (u32 (nvmAdd + o)) n
    · have hs := hput (data + o) (s.flash.read (u32 (nvmAdd + o)) n) s
      rw [Cmd.bind_ok (flashPiece_ok hr), ih, placeAll, hs.1]
      refine and_congr_left fun _ => ⟨fun h k m hm => ?_, fun h k m hm => ?_⟩
      · rcases List.mem_cons.mp hm with heq | hm
        · obtain ⟨rfl, rfl⟩ := Prod.mk.inj heq
          exact hr
        · exact hs.reads.mp (h k m hm)
      · exact hs.reads.mpr (h k m (List.mem_cons_of_mem _ hm))
    · rw [Cmd.bind_error (flashPiece_error hr)]
      refine iff_of_false (fun h => ?_) fun h => hr (h.1 o n List.mem_cons_self)
      cases congrArg Prod.fst h

/-- A piece that is read lies below 2³², so the address of the next does not wrap. -/
theorem Boot.FlashReads.lt {s : Boot} {a n : ℕ} (h : s.FlashReads (u32 a) n) : u32 a + n < 2 ^ 32 ∨
    2 ^ 32 ≤ n := by
  obtain ⟨h0, h₁, h₂, -⟩ := h
  have := u32_lt a
  simp only [u32] at *
  omega

/-- The address in flash of an image address. -/
theorem nvmAdd_start (address : ℕ) : u32 (u32sub address appImageFlashAddress + 0) =
    u32sub address appImageFlashAddress + 0 := by
  have h : u32sub address appImageFlashAddress < 2 ^ 32 := u32_lt _
  rw [Nat.add_zero]
  exact u32_of_lt h

/-- The pieces of a read range are the range's bytes. -/
theorem Boot.ReadsPieces.addr {s : Boot} {nvmAdd bytes done : ℕ} {cs : List (ℕ × ℕ)} (hb : bytes < 2 ^ 32)
    (ht : Tiles bytes done cs) (h : s.ReadsPieces nvmAdd cs) (hd : u32 (nvmAdd + done) = nvmAdd + done ∨ cs = []) :
    ∀ o n, (o, n) ∈ cs → u32 (nvmAdd + o) = nvmAdd + o := by
  induction ht with
  | nil => exact fun _ _ hm => by cases hm
  | @cons done n cs hn hle ht ih =>
    have hd' := hd.resolve_right (by simp)
    have hlt := (h done n List.mem_cons_self).lt
    rw [hd'] at hlt
    intro o k hm
    rcases List.mem_cons.mp hm with heq | hm
    · obtain ⟨rfl, rfl⟩ := Prod.mk.inj heq
      exact hd'
    · refine ih (fun o k hm => h o k (List.mem_cons_of_mem _ hm)) (.inl ?_) o k hm
      rw [← Nat.add_assoc]
      exact u32_of_lt (by omega)

/-- The bytes from `done` on are the next piece and what comes after it. -/
theorem read_piece (m : Memory) (a : ℕ) {done n bytes : ℕ} (h : done + n ≤ bytes) :
    m.read (a + done) (bytes - done) = m.read (a + done) n ++ m.read (a + (done + n)) (bytes - (done + n)) := by
  rw [show bytes - done = n + (bytes - (done + n)) by omega, Memory.read_add, Nat.add_assoc]

theorem Boot.putRam_sameFlash (a : ℕ) (b : Bytes) (s : Boot) : s.SameFlash (s.putRam a b) := ⟨rfl, rfl, rfl⟩

/-- The pieces put in RAM are one store. -/
theorem placeAll_ram {flash : Memory} {nvmAdd data bytes done : ℕ} {cs : List (ℕ × ℕ)} (ht : Tiles bytes done cs)
    (ha : ∀ o n, (o, n) ∈ cs → u32 (nvmAdd + o) = nvmAdd + o) (s : Boot) :
    placeAll Boot.putRam flash nvmAdd data cs s =
      { s with ram := s.ram.store (data + done) (flash.read (nvmAdd + done) (bytes - done)) } := by
  induction ht generalizing s with
  | nil =>
    rw [placeAll, Nat.sub_self, show flash.read (nvmAdd + bytes) 0 = [] from rfl, Memory.store_nil]
  | @cons done n cs hn hle ht ih =>
    rw [placeAll, ih fun o k hm => ha o k (List.mem_cons_of_mem _ hm), ha done n List.mem_cons_self,
      read_piece flash nvmAdd hle, ← Memory.store_append, Memory.length_read, Nat.add_assoc]
    rfl

/-! ### Flash to RRAM: writes that are refused -/

/-- A write to RRAM that is refused leaves it as it is. -/
theorem Boot.putRram_eq (a : ℕ) (b : Bytes) (s : Boot) :
    s.putRram a b = if rramVerifyAddress a b.length then { s with rram := s.rram.store a b } else s := by
  rw [putRram, Dxe.rramWriteDxe_eq]
  by_cases hv : rramVerifyAddress a b.length = true
  · rw [if_pos hv, if_pos hv]
  · rw [if_neg hv, if_neg hv]

theorem Boot.putRram_sameFlash (a : ℕ) (b : Bytes) (s : Boot) : s.SameFlash (s.putRram a b) := by
  rw [putRram_eq]
  split <;> exact ⟨rfl, rfl, rfl⟩

theorem Boot.putRram_out {a : ℕ} {b : Bytes} {s : Boot} {x : ℕ} (h : x < a ∨ a + b.length ≤ x) :
    (s.putRram a b).rram x = s.rram x := by
  rw [putRram_eq]
  split
  · exact Memory.store_out h
  · rfl

/-- The later pieces do not touch the earlier ones. -/
theorem placeAll_rram_before {flash : Memory} {nvmAdd data bytes done : ℕ} {cs : List (ℕ × ℕ)}
    (ht : Tiles bytes done cs) (s : Boot) {x : ℕ} (hx : x < data + done) :
    (placeAll Boot.putRram flash nvmAdd data cs s).rram x = s.rram x := by
  induction ht generalizing s with
  | nil => rfl
  | @cons done n cs hn hle ht ih =>
    rw [placeAll, ih _ (by omega), Boot.putRram_out (.inl hx)]

/-- Only RRAM changes. -/
theorem placeAll_rram_rest (flash : Memory) (nvmAdd data : ℕ) (cs : List (ℕ × ℕ)) (s : Boot) :
    placeAll Boot.putRram flash nvmAdd data cs s =
      { s with rram := (placeAll Boot.putRram flash nvmAdd data cs s).rram } := by
  induction cs generalizing s with
  | nil => rfl
  | cons c cs ih =>
    obtain ⟨o, n⟩ := c
    rw [placeAll, ih, Boot.putRram_eq]
    split <;> rfl

/-- The piece is written, or it is there already. -/
def Boot.PieceLands (s : Boot) (nvmAdd data o n : ℕ) : Prop :=
  rramVerifyAddress (data + o) n = true ∨ ∀ i < n, s.rram (data + o + i) = s.flash (nvmAdd + o + i)

/-- The pieces put in RRAM are one store exactly when each of them lands. -/
theorem placeAll_rram_iff {nvmAdd bytes done : ℕ} (data : ℕ) {cs : List (ℕ × ℕ)} {flash : Memory}
    (ht : Tiles bytes done cs) (ha : ∀ o n, (o, n) ∈ cs → u32 (nvmAdd + o) = nvmAdd + o) (s : Boot)
    (hf : s.flash = flash) :
    (placeAll Boot.putRram flash nvmAdd data cs s).rram =
        s.rram.store (data + done) (flash.read (nvmAdd + done) (bytes - done)) ↔
      ∀ o n, (o, n) ∈ cs → s.PieceLands nvmAdd data o n := by
  induction ht generalizing s with
  | nil =>
    rw [placeAll, Nat.sub_self, show flash.read (nvmAdd + bytes) 0 = [] from rfl, Memory.store_nil]
    exact iff_of_true rfl fun _ _ hm => absurd hm List.not_mem_nil
  | @cons done n cs hn hle ht ih =>
    set b := flash.read (nvmAdd + done) n with hb
    have hbl : b.length = n := Memory.length_read _ _ _
    have haddr := ha done n List.mem_cons_self
    have ha' : ∀ o k, (o, k) ∈ cs → u32 (nvmAdd + o) = nvmAdd + o := fun o k hm => ha o k (List.mem_cons_of_mem _ hm)
    rw [placeAll, haddr, ← hb, read_piece flash nvmAdd hle, ← hb, ← Memory.store_append, hbl, Nat.add_assoc]
    have hput := s.putRram_eq (data + done) b
    rw [hbl] at hput
    by_cases hl : s.PieceLands nvmAdd data done n
    · -- the first piece is in place: what is left is the tail
      have hfirst : (s.putRram (data + done) b).rram = s.rram.store (data + done) b := by
        rw [hput]
        split
        · rfl
        · rename_i hv
          refine (Memory.store_of_eq fun i hi => ?_).symm
          rw [hbl] at hi
          rw [hl.resolve_left hv i hi, hb, Memory.getD_read flash hi, hf]
      have hflash : (s.putRram (data + done) b).flash = flash := by
        rw [hput]
        split
        · exact hf
        · exact hf
      have hlands : ∀ o k, (o, k) ∈ cs →
          ((s.putRram (data + done) b).PieceLands nvmAdd data o k ↔ s.PieceLands nvmAdd data o k) := by
        intro o k hm
        have hpos := (ht.mem hm).1
        rw [Boot.PieceLands, Boot.PieceLands, hflash, hf]
        refine or_congr_right (forall₂_congr fun i _ => ?_)
        rw [Boot.putRram_out (.inr (by rw [hbl]; omega))]
      rw [← hfirst, ih ha' _ hflash]
      constructor
      · intro h o k hm
        rcases List.mem_cons.mp hm with heq | hm
        · obtain ⟨rfl, rfl⟩ := Prod.mk.inj heq
          exact hl
        · exact (hlands o k hm).mp (h o k hm)
      · exact fun h o k hm => (hlands o k hm).mpr (h o k (List.mem_cons_of_mem _ hm))
    · -- the first piece is refused and differs somewhere, and nothing later repairs it
      refine iff_of_false (fun h => hl ?_) fun h => hl (h done n List.mem_cons_self)
      by_cases hv : rramVerifyAddress (data + done) n = true
      · exact .inl hv
      · right
        intro i hi
        rw [hput, if_neg hv] at h
        have hx := congrFun h (data + done + i)
        rw [placeAll_rram_before ht _ (by omega), Memory.store_out (.inl (by omega)),
          Memory.store_in (by rw [hbl]; exact hi), hb, Memory.getD_read flash hi] at hx
        rw [hx, hf]

/-! ### RRAM to RAM: the chunk past the end -/

theorem ntBlRramRead_ok {address data n : ℕ} {s : Boot} (hn : n ≠ 0) (h : s.rramOk address n = true) :
    ((ntBlRramRead address data n).orFail .elfMemRead : Cmd Boot BlError Unit) s =
      (.ok (), { s with ram := s.ram.store data (s.rram.read address n) }) := by
  rw [Cmd.orFail, ntBlRramRead, if_neg hn, if_pos h]

theorem ntBlRramRead_error {address data n : ℕ} {s : Boot} (h : ¬(n ≠ 0 ∧ s.rramOk address n = true)) :
    ((ntBlRramRead address data n).orFail .elfMemRead : Cmd Boot BlError Unit) s = (.error .elfMemRead, s) := by
  rw [Cmd.orFail, ntBlRramRead]
  by_cases hn : n = 0
  · rw [if_pos hn]
  · rw [if_neg hn, if_neg fun hr => h ⟨hn, hr⟩]

/-- The loop copies `n` whole chunks, if each of them can be read. -/
theorem rramToRamLoop_eq (address data bytes : ℕ) : ∀ (n done : ℕ) (s : Boot), done + n * 2048 ≤ bytes + 2048 →
    ((∀ k < n, s.rramOk (address + done + k * 2048) 2048 = true) →
      rramToRamLoop address data bytes n done s = (.ok (done + n * 2048),
        { s with ram := s.ram.store (data + done) (s.rram.read (address + done) (n * 2048)) })) ∧
    ((∃ k < n, s.rramOk (address + done + k * 2048) 2048 = false) →
      ∃ s', rramToRamLoop address data bytes n done s = (.error .elfMemRead, s'))
  | 0, done, s, _ => by
    refine ⟨fun _ => ?_, fun ⟨k, hk, _⟩ => absurd hk (Nat.not_lt_zero k)⟩
    rw [rramToRamLoop, Nat.zero_mul, Nat.add_zero, Cmd.pure_apply, show s.rram.read (address + done) 0 = [] from rfl,
      Memory.store_nil]
  | n + 1, done, s, hb => by
    have hstep : ∀ k, address + (done + 2048) + k * 2048 = address + done + (k + 1) * 2048 := fun k => by omega
    rw [rramToRamLoop, if_pos (by omega)]
    by_cases h0 : s.rramOk (address + done) 2048 = true
    · obtain ⟨hok, herr⟩ := rramToRamLoop_eq address data bytes n (done + 2048)
        { s with ram := s.ram.store (data + done) (s.rram.read (address + done) 2048) } (by omega)
      rw [Cmd.bind_ok (ntBlRramRead_ok (by decide) h0)]
      constructor
      · intro h
        have hrest := hok fun k hk => by rw [hstep]; exact h (k + 1) (by omega)
        have hstore := Memory.store_append s.ram (data + done) (s.rram.read (address + done) 2048)
          (s.rram.read (address + done + 2048) (n * 2048))
        rw [Memory.length_read, ← Memory.read_add] at hstore
        rw [hrest]
        simp only [← Nat.add_assoc]
        rw [hstore, show 2048 + n * 2048 = (n + 1) * 2048 by omega,
          show done + 2048 + n * 2048 = done + (n + 1) * 2048 by omega]
      · rintro ⟨k, hk, hbad⟩
        cases k with
        | zero => simp [h0] at hbad
        | succ k =>
          rw [← hstep] at hbad
          exact herr ⟨k, by omega, hbad⟩
    · rw [Cmd.bind_error (ntBlRramRead_error fun h => h0 h.2)]
      refine ⟨fun h => ?_, fun _ => ⟨s, rfl⟩⟩
      have := h 0 (by omega)
      simp [h0] at this

/-- All the reads of a copy from RRAM of more than one chunk are let through: the whole chunks up to the
    one past the end, and the rest of the range. -/
def Boot.RramReads (s : Boot) (address bytes : ℕ) : Prop :=
  (∀ k < bytes / 2048 + 1, s.rramOk (address + k * 2048) 2048 = true) ∧
    (bytes % 2048 ≠ 0 → s.rramOk (address + bytes / 2048 * 2048) (bytes % 2048) = true)

/-- Storing again what a longer store has stored. -/
theorem store_again (m : Memory) (a : ℕ) (d e f : Bytes) :
    (m.store a (d ++ e ++ f)).store (a + d.length) e = m.store a (d ++ e ++ f) := by
  refine Memory.store_of_eq fun i hi => ?_
  rw [Nat.add_assoc, Memory.store_in (by simp only [List.length_append]; omega)]
  simp only [List.getD_eq_getElem?_getD, List.append_assoc]
  rw [List.getElem?_append_right (by omega), Nat.add_sub_cancel_left, List.getElem?_append_left hi]

/-- A copy from RRAM of more than one chunk: it copies whole chunks, one more than fit in the range. -/
theorem blElfRramReadToRam_large (address data bytes : ℕ) (s : Boot) (hb : 2048 < bytes) :
    (s.RramReads address bytes ∧ bytes < 2 ^ 32 - 2048 →
      blElfRramReadToRam address data bytes s = (.ok (),
        { s with ram := s.ram.store data (s.rram.read address ((bytes / 2048 + 1) * 2048)) })) ∧
    (¬(s.RramReads address bytes ∧ bytes < 2 ^ 32 - 2048) →
      ∃ e s', blElfRramReadToRam address data bytes s = (.error e, s')) := by
  set q := bytes / 2048 with hq
  set r := bytes % 2048 with hr
  have hqr : bytes = q * 2048 + r := by omega
  have hr' : r < 2048 := Nat.mod_lt _ (by decide)
  obtain ⟨hok, herr⟩ := rramToRamLoop_eq address data bytes (q + 1) 0 s (by omega)
  simp only [Nat.zero_add, Nat.add_zero] at hok herr
  rw [blElfRramReadToRam, if_pos hb, ← hq]
  by_cases hall : ∀ k < q + 1, s.rramOk (address + k * 2048) 2048 = true
  · rw [Cmd.bind_ok (hok hall)]
    set s₁ : Boot := { s with ram := s.ram.store data (s.rram.read address ((q + 1) * 2048)) } with hs₁
    have hsame : s₁.rramOk = s.rramOk := rfl
    by_cases hh : 2 ^ 32 - 2048 ≤ bytes
    · rw [if_pos hh]
      exact ⟨fun h => absurd h.2 (by omega), fun _ => ⟨_, _, rfl⟩⟩
    · rw [if_neg hh]
      simp only [if_pos (show bytes < (q + 1) * 2048 by omega),
        show 2048 - ((q + 1) * 2048 - bytes) = r by omega, show (q + 1) * 2048 - 2048 = q * 2048 by omega]
      by_cases h0 : r = 0
      · rw [if_neg (not_not.mpr h0)]
        exact ⟨fun _ => rfl, fun h => absurd ⟨⟨hall, fun hne => absurd h0 hne⟩, by omega⟩ h⟩
      · rw [if_pos h0]
        by_cases hlast : s₁.rramOk (address + q * 2048) r = true
        · refine ⟨fun _ => ?_, fun h => absurd ⟨⟨hall, fun _ => hlast⟩, by omega⟩ h⟩
          rw [ntBlRramRead_ok h0 hlast]
          -- the last read stores once more what the chunk past the end has stored
          have hsplit : s.rram.read address ((q + 1) * 2048) = s.rram.read address (q * 2048) ++
              s.rram.read (address + q * 2048) r ++ s.rram.read (address + q * 2048 + r) (2048 - r) := by
            rw [List.append_assoc, ← Memory.read_add, ← Memory.read_add,
              show (q + 1) * 2048 = q * 2048 + (r + (2048 - r)) by omega]
          have hagain := store_again s.ram data (s.rram.read address (q * 2048))
            (s.rram.read (address + q * 2048) r) (s.rram.read (address + q * 2048 + r) (2048 - r))
          rw [Memory.length_read, ← hsplit] at hagain
          rw [hs₁]
          simp only [hagain]
        · rw [ntBlRramRead_error fun h => hlast h.2]
          exact ⟨fun h => absurd (h.1.2 h0) hlast, fun _ => ⟨_, _, rfl⟩⟩
  · obtain ⟨k, hk, hbad⟩ : ∃ k < q + 1, s.rramOk (address + k * 2048) 2048 = false := by
      by_contra hno
      exact hall fun k hk => by
        by_contra hbad
        exact hno ⟨k, hk, by simpa using hbad⟩
    obtain ⟨s', hs'⟩ := herr ⟨k, hk, hbad⟩
    rw [Cmd.bind_error hs']
    exact ⟨fun h => absurd h.1.1 hall, fun _ => ⟨_, _, rfl⟩⟩

/-! ### Chunked copies and one copy -/

/-- If the routine returns no error, RAM is as after one copy of `src` to `data`, and nothing else has
    changed. -/
def OneCopyToRam (c : Cmd Boot BlError Unit) (s : Boot) (data : ℕ) (src : Bytes) : Prop :=
  ∀ s', c s = (.ok (), s') → s' = { s with ram := s.ram.store data src }

/-- The same for RRAM. -/
def OneCopyToRram (c : Cmd Boot BlError Unit) (s : Boot) (data : ℕ) (src : Bytes) : Prop :=
  ∀ s', c s = (.ok (), s') → s' = { s with rram := s.rram.store data src }

/-- When the copy from RRAM is one copy: at most one chunk, a read that is refused, a loop that never ends,
    or bytes after the range that are the same already. -/
def Boot.OverrunHarmless (s : Boot) (address data bytes : ℕ) : Prop :=
  bytes ≤ 2048 ∨ ¬s.RramReads address bytes ∨ 2 ^ 32 - 2048 ≤ bytes ∨
    ∀ i, bytes ≤ i → i < (bytes / 2048 + 1) * 2048 → s.ram (data + i) = s.rram (address + i)

/-- When the copy from flash to RRAM is one copy: a piece is not read, or each is written or there already. -/
def Boot.PiecesLand (s : Boot) (nvmAdd data bytes : ℕ) : Prop :=
  ¬s.ReadsPieces nvmAdd (chunks bytes) ∨ ∀ o n, (o, n) ∈ chunks bytes → s.PieceLands nvmAdd data o n

theorem flashToRam_one_copy {address data bytes : ℕ} (s : Boot) (hb : bytes < 2 ^ 32) :
    OneCopyToRam (blElfFlashReadToRam address data bytes) s data
      (s.flash.read (u32sub address appImageFlashAddress) bytes) := by
  intro s' h
  rw [blElfFlashReadToRam, flashCopy_eq, copyPieces_ok_iff Boot.putRam_sameFlash] at h
  obtain ⟨hr, rfl⟩ := h
  have haddr := hr.addr hb (chunks_tiles bytes) (.inl (nvmAdd_start address))
  rw [placeAll_ram (chunks_tiles bytes) haddr, Nat.add_zero, Nat.add_zero, Nat.sub_zero]

theorem rramToRam_one_copy_iff {address data bytes : ℕ} (s : Boot) :
    OneCopyToRam (blElfRramReadToRam address data bytes) s data (s.rram.read address bytes) ↔
      s.OverrunHarmless address data bytes := by
  by_cases hb : 2048 < bytes
  · obtain ⟨hok, herr⟩ := blElfRramReadToRam_large address data bytes s hb
    by_cases hr : s.RramReads address bytes ∧ bytes < 2 ^ 32 - 2048
    · have hcond : s.OverrunHarmless address data bytes ↔
          ∀ i, bytes ≤ i → i < (bytes / 2048 + 1) * 2048 → s.ram (data + i) = s.rram (address + i) := by
        rw [Boot.OverrunHarmless]
        exact ⟨fun h => ((h.resolve_left (by omega)).resolve_left (not_not.mpr hr.1)).resolve_left (by omega),
          fun h => .inr (.inr (.inr h))⟩
      set total := (bytes / 2048 + 1) * 2048 with htotal
      have hlt : bytes < total := by omega
      have hsplit : s.rram.read address total =
          s.rram.read address bytes ++ s.rram.read (address + bytes) (total - bytes) := by
        rw [← Memory.read_add, Nat.add_sub_cancel' hlt.le]
      rw [hcond, OneCopyToRam, hok hr, hsplit]
      constructor
      · -- an address past the range has kept its byte, and it was stored from RRAM
        intro h i hi hit
        have hx := congrFun (congrArg Boot.ram (h _ rfl)) (data + i)
        simp only at hx
        rw [Memory.store_in (by simp only [List.length_append, Memory.length_read]; omega),
          Memory.store_out (.inr (by rw [Memory.length_read]; omega)), ← hsplit, Memory.getD_read _ hit] at hx
        exact hx.symm
      · intro h s' hs'
        cases hs'
        congr 1
        rw [← Memory.store_append]
        refine Memory.store_of_eq fun i hi => ?_
        rw [Memory.length_read] at hi ⊢
        rw [Memory.store_out (.inr (by rw [Memory.length_read]; omega)), Memory.getD_read _ hi, Nat.add_assoc,
          Nat.add_assoc]
        exact h (bytes + i) (by omega) (by omega)
    · obtain ⟨e, s', he⟩ := herr hr
      refine iff_of_true (fun s'' h => ?_) ?_
      · rw [he] at h
        cases congrArg Prod.fst h
      · rcases not_and_or.mp hr with h | h
        · exact .inr (.inl h)
        · exact .inr (.inr (.inl (by omega)))
  · refine iff_of_true (fun s' h => ?_) (.inl (by omega))
    rw [blElfRramReadToRam, if_neg hb] at h
    by_cases h0 : bytes = 0
    · rw [if_neg (not_not.mpr h0)] at h
      cases h
      rw [h0, show s.rram.read address 0 = [] from rfl, Memory.store_nil]
    · rw [if_pos h0] at h
      by_cases hr : s.rramOk address bytes = true
      · rw [ntBlRramRead_ok h0 hr] at h
        cases h
        rfl
      · rw [ntBlRramRead_error fun h => hr h.2] at h
        cases congrArg Prod.fst h

theorem flashToRram_one_copy_iff {address data bytes : ℕ} (s : Boot) (hb : bytes < 2 ^ 32) :
    OneCopyToRram (blElfFlashReadToRramDxe address data bytes) s data
        (s.flash.read (u32sub address appImageFlashAddress) bytes) ↔
      s.PiecesLand (u32sub address appImageFlashAddress) data bytes := by
  set nvmAdd := u32sub address appImageFlashAddress with hnvm
  have hcopy : ∀ s', blElfFlashReadToRramDxe address data bytes s = (.ok (), s') ↔
      s.ReadsPieces nvmAdd (chunks bytes) ∧ s' = placeAll Boot.putRram s.flash nvmAdd data (chunks bytes) s := by
    intro s'
    rw [blElfFlashReadToRramDxe, flashCopy_eq, copyPieces_ok_iff Boot.putRram_sameFlash]
  by_cases hr : s.ReadsPieces nvmAdd (chunks bytes)
  · have haddr := hr.addr hb (chunks_tiles bytes) (.inl (nvmAdd_start address))
    have hplace := placeAll_rram_iff data (chunks_tiles bytes) haddr s rfl
    rw [Nat.add_zero, Nat.add_zero, Nat.sub_zero] at hplace
    have hcond : s.PiecesLand nvmAdd data bytes ↔
        ∀ o n, (o, n) ∈ chunks bytes → s.PieceLands nvmAdd data o n :=
      ⟨fun h => h.resolve_left (not_not.mpr hr), .inr⟩
    rw [hcond, ← hplace]
    constructor
    · exact fun h => congrArg Boot.rram (h _ ((hcopy _).mpr ⟨hr, rfl⟩))
    · intro h s' hs'
      rw [((hcopy s').mp hs').2, placeAll_rram_rest, h]
  · exact iff_of_true (fun s' hs' => absurd ((hcopy s').mp hs').1 hr) (.inl hr)

/-- Which chunked copies are one copy: every one from flash to RAM; one from RRAM to RAM whose chunk past
    the end does no harm; one from flash to RRAM whose refused writes were not needed. -/
theorem chunked_copies_one_copy_iff (s : Boot) (address data bytes : ℕ) (hb : bytes < 2 ^ 32) :
    OneCopyToRam (blElfFlashReadToRam address data bytes) s data
      (s.flash.read (u32sub address appImageFlashAddress) bytes) ∧
    (OneCopyToRam (blElfRramReadToRam address data bytes) s data (s.rram.read address bytes) ↔
      s.OverrunHarmless address data bytes) ∧
    (OneCopyToRram (blElfFlashReadToRramDxe address data bytes) s data
        (s.flash.read (u32sub address appImageFlashAddress) bytes) ↔
      s.PiecesLand (u32sub address appImageFlashAddress) data bytes) :=
  ⟨flashToRam_one_copy s hb, rramToRam_one_copy_iff s, flashToRram_one_copy_iff s hb⟩

/-- Empty RAM, RRAM of ones, flash of twos; every address of RRAM can be read. -/
def smallBoot : Boot where
  ram := fun _ => 0
  rram := fun _ => 1
  flash := fun _ => 2
  densityInBlocks := 1024
  rramOk := fun _ _ => true
  flashFault := fun _ _ => false

/-- A segment of 100 bytes is copied as it should be, from either memory. -/
theorem chunked_copies_one_copy_small :
    OneCopyToRam (blElfRramReadToRam 0x200000 0x1000 100) smallBoot 0x1000 (smallBoot.rram.read 0x200000 100) ∧
    OneCopyToRram (blElfFlashReadToRramDxe 0xA00000 0x200000 100) smallBoot 0x200000
      (smallBoot.flash.read (u32sub 0xA00000 appImageFlashAddress) 100) := by
  refine ⟨(chunked_copies_one_copy_iff smallBoot 0x200000 0x1000 100 (by decide)).2.1.mpr (.inl (by decide)),
    (chunked_copies_one_copy_iff smallBoot 0xA00000 0x200000 100 (by decide)).2.2.mpr (.inr ?_)⟩
  intro o n hm
  obtain ⟨rfl, rfl⟩ := Prod.mk.inj (List.mem_singleton.mp (show (o, n) ∈ [(0, 100)] from hm))
  exact .inl (by decide)

/-- A copy of 4096 bytes from RRAM overwrites the 2048 bytes after its range; a copy from flash to an
    address that is not a multiple of four writes nothing. Both return no error. -/
theorem overrun_and_lost_write :
    ¬OneCopyToRam (blElfRramReadToRam 0x200000 0x1000 4096) smallBoot 0x1000 (smallBoot.rram.read 0x200000 4096) ∧
    ¬OneCopyToRram (blElfFlashReadToRramDxe 0xA00000 0x200002 100) smallBoot 0x200002
      (smallBoot.flash.read (u32sub 0xA00000 appImageFlashAddress) 100) := by
  constructor
  · intro h
    have hrun := (blElfRramReadToRam_large 0x200000 0x1000 4096 smallBoot (by decide)).1 ⟨⟨fun _ _ => rfl, fun _ => rfl⟩, by decide⟩
    have hx := congrFun (congrArg Boot.ram (h _ hrun)) 0x2000
    simp only at hx
    rw [Memory.store, if_pos (by rw [Memory.length_read]; decide), Memory.getD_read _ (by decide),
      Memory.store_out (.inr (by rw [Memory.length_read]))] at hx
    exact absurd hx (by decide)
  · intro h
    have hrun : (blElfFlashReadToRramDxe 0xA00000 0x200002 100 smallBoot).1 = .ok () := by decide
    have hkept : (blElfFlashReadToRramDxe 0xA00000 0x200002 100 smallBoot).2.rram 0x200002 = 1 := by decide
    rcases hc : blElfFlashReadToRramDxe 0xA00000 0x200002 100 smallBoot with ⟨r, s'⟩
    rw [hc] at hrun hkept
    obtain rfl : r = .ok () := hrun
    have hx := congrFun (congrArg Boot.rram (h s' hc)) 0x200002
    simp only at hx
    rw [show s'.rram 0x200002 = 1 from hkept, Memory.store, if_pos (by rw [Memory.length_read]; decide), Memory.getD_read _ (by decide)] at hx
    exact absurd hx (by decide)

/-! ### The same copies as RRAM writes

    `Sbl.Elf` lists the bytes that a load stores in RRAM one by one, for power losses between them. Made
    in order they are the stores of the copy routines here. -/

/-- The bytes of a buffer, stored one after the other. -/
theorem replay_bytes (b : Bytes) (a : ℕ) (m : Mem) :
    (replay Mem.app m (b.mapIdx fun i x => .rram (a + i) [x])).rram = m.rram.store a b := by
  induction b generalizing a m with
  | nil => rw [List.mapIdx_nil, replay_nil, Memory.store_nil]
  | cons x b ih =>
    rw [List.mapIdx_cons, replay_cons]
    have hshift : (fun i y => Write.rram (a + (i + 1)) [y]) = fun i y => Write.rram (a + 1 + i) [y] := by
      funext i y
      rw [Nat.add_comm i, Nat.add_assoc]
    rw [hshift, ih]
    exact Memory.store_append m.rram a [x] b

/-- The writes of `Sbl.Elf` for one transfer. -/
theorem replay_rramWriteDxe (m : Mem) (a : ℕ) (b : Bytes) (s : Boot) (hs : s.rram = m.rram) :
    (replay Mem.app m (rramWriteDxe a b)).rram = (s.putRram a b).rram := by
  rw [Boot.putRram_eq, rramWriteDxe]
  by_cases hv : rramVerifyAddress a b.length = true
  · rw [if_pos hv, if_pos hv, replay_bytes, hs]
  · rw [if_neg hv, if_neg hv, replay_nil, hs]

theorem elfFlashReadToRramDxe_nil (n data : ℕ) : elfFlashReadToRramDxe n data [] = [] := by
  cases n <;> rfl

theorem elfFlashReadToRramDxe_cons {n data : ℕ} {b : Bytes} (h : b ≠ []) : elfFlashReadToRramDxe (n + 1) data b =
    rramWriteDxe data (b.take 2048) ++ elfFlashReadToRramDxe n (data + 2048) (b.drop 2048) := by
  cases b with
  | nil => exact absurd rfl h
  | cons x b => rfl

/-- The last piece of a copy, as writes. -/
theorem replay_last {flash : Memory} {nvmAdd data bytes done : ℕ} (k : ℕ)
    (hr : bytes - done ≤ 2048) (hk : bytes - done ≤ k) (ha : u32 (nvmAdd + done) = nvmAdd + done) (m : Mem) (s : Boot)
    (hs : s.rram = m.rram) :
    (replay Mem.app m (elfFlashReadToRramDxe k (data + done) (flash.read (nvmAdd + done) (bytes - done)))).rram =
      (placeAll Boot.putRram flash nvmAdd data
        (if bytes - done ≠ 0 then [(done, bytes - done)] else []) s).rram := by
  by_cases h0 : bytes - done = 0
  · rw [if_neg (not_not.mpr h0), h0, show flash.read (nvmAdd + done) 0 = [] from rfl, elfFlashReadToRramDxe_nil,
      replay_nil, placeAll, hs]
  · obtain ⟨k, rfl⟩ : ∃ j, k = j + 1 := ⟨k - 1, by omega⟩
    have hlen : (flash.read (nvmAdd + done) (bytes - done)).length = bytes - done := Memory.length_read _ _ _
    have hne : flash.read (nvmAdd + done) (bytes - done) ≠ [] := fun h => by
      rw [h, List.length_nil] at hlen
      omega
    rw [if_pos h0, elfFlashReadToRramDxe_cons hne, List.take_of_length_le (by omega),
      List.drop_eq_nil_of_le (by omega), elfFlashReadToRramDxe_nil, List.append_nil, placeAll, placeAll, ha]
    exact replay_rramWriteDxe m _ _ s hs

/-- A copy from flash to RRAM, as writes. -/
theorem replay_pieces (flash : Memory) (nvmAdd data bytes : ℕ) : ∀ (n k done : ℕ), done ≤ bytes →
    bytes - done ≤ n * 2048 + 2048 → bytes - done ≤ k →
    (∀ o j, (o, j) ∈ pieces bytes n done → u32 (nvmAdd + o) = nvmAdd + o) →
    ∀ (m : Mem) (s : Boot), s.rram = m.rram →
    (replay Mem.app m (elfFlashReadToRramDxe k (data + done) (flash.read (nvmAdd + done) (bytes - done)))).rram =
      (placeAll Boot.putRram flash nvmAdd data (pieces bytes n done) s).rram
  | 0, k, done, hd, hn, hk, ha, m, s, hs => by
    rw [pieces] at ha ⊢
    by_cases h0 : bytes - done = 0
    · rw [if_neg (not_not.mpr h0), h0, show flash.read (nvmAdd + done) 0 = [] from rfl, elfFlashReadToRramDxe_nil,
        replay_nil, placeAll, hs]
    · refine replay_last k (by omega) hk (ha done (bytes - done) ?_) m s hs
      rw [if_pos h0]
      exact List.mem_singleton.mpr rfl
  | n + 1, k, done, hd, hn, hk, ha, m, s, hs => by
    rw [pieces] at ha ⊢
    by_cases hc : done ≤ bytes ∧ 2048 < bytes - done
    · obtain ⟨k, rfl⟩ : ∃ j, k = j + 1 := ⟨k - 1, by omega⟩
      rw [if_pos hc] at ha ⊢
      have haddr := ha done 2048 List.mem_cons_self
      have hlen : (flash.read (nvmAdd + done) 2048).length = 2048 := Memory.length_read _ _ _
      have hne : flash.read (nvmAdd + done) 2048 ++ flash.read (nvmAdd + (done + 2048)) (bytes - (done + 2048)) ≠ [] :=
        fun h => by
          rw [(List.append_eq_nil_iff.mp h).1, List.length_nil] at hlen
          omega
      rw [read_piece flash nvmAdd (show done + 2048 ≤ bytes by omega), elfFlashReadToRramDxe_cons hne,
        List.take_left' hlen, List.drop_left' hlen, replay_append, placeAll, haddr, Nat.add_assoc]
      refine replay_pieces flash nvmAdd data bytes n k (done + 2048) (by omega) (by omega) (by omega)
        (fun o j hm => ha o j (List.mem_cons_of_mem _ hm)) _ _ ?_
      exact (replay_rramWriteDxe m _ _ s hs).symm
    · rw [if_neg hc] at ha ⊢
      by_cases h0 : bytes - done = 0
      · rw [if_neg (not_not.mpr h0), h0, show flash.read (nvmAdd + done) 0 = [] from rfl,
          elfFlashReadToRramDxe_nil, replay_nil, placeAll, hs]
      · refine replay_last k (by omega) hk (ha done (bytes - done) ?_) m s hs
        rw [if_pos h0]
        exact List.mem_singleton.mpr rfl

/-- When the copy from flash to RRAM returns no error, RRAM is as after the writes of `Sbl.Elf`. -/
theorem flashToRram_writes {address data bytes : ℕ} {s s' : Boot} (hb : bytes < 2 ^ 32) {m : Mem}
    (hs : s.rram = m.rram) (h : blElfFlashReadToRramDxe address data bytes s = (.ok (), s')) :
    s'.rram = (replay Mem.app m (elfFlashReadToRramDxe bytes data
      (s.flash.read (u32sub address appImageFlashAddress) bytes))).rram := by
  rw [blElfFlashReadToRramDxe, flashCopy_eq, copyPieces_ok_iff Boot.putRram_sameFlash] at h
  obtain ⟨hr, rfl⟩ := h
  have haddr := hr.addr hb (chunks_tiles bytes) (.inl (nvmAdd_start address))
  have hwrites := replay_pieces s.flash _ data bytes (bytes / 2048) bytes 0 (Nat.zero_le _) (by omega)
    (by omega) haddr m s hs
  rw [Nat.add_zero, Nat.add_zero, Nat.sub_zero] at hwrites
  exact hwrites.symm

/-- A segment of 100 bytes. -/
theorem flashToRram_writes_small :
    (blElfFlashReadToRramDxe 0xA00000 0x200000 100 smallBoot).2.rram =
      (replay Mem.app ⟨fun _ => 0, smallBoot.rram, ⟨0, 0, fun _ => .zero⟩⟩ (elfFlashReadToRramDxe 100 0x200000
        (smallBoot.flash.read (u32sub 0xA00000 appImageFlashAddress) 100))).rram :=
  flashToRram_writes (by decide) rfl (Prod.ext rfl rfl)

end Qcc730.Sbl
