import Qcc730.Nvm.Checksum
import Qcc730.Nvm.Jtag
import Qcc730.Nvm.OtpField

/-! The calibrated board data in RRAM, and what the programmer's operations do to it.

    `download` looks at the calibration flag when the image starts in the region. An image that starts below it and
    runs into it is not looked at, nor is an erase. A forced download clears the flag, again only when it starts in
    the region. The operations of a configuration file and of a download table are downloads, erases and OTP writes
    one after the other; an exception ends them.

    The RRAM and the OTP are the memory of `RramState`, the OTP at 0x1A0000. Of a download to flash, and of an
    erase of it, only the outcome is given. -/

namespace Qcc730.Nvm
open Lib

/-! ### The source -/

/-- `BDF_RRAM_ADDRESS` and `BDF_SIZE` -/
def bdfRegion : Range := ⟨0x37A000, 0x6000⟩

/-- `is_bdf_address` -/
def IsBdfAddress (address : ℕ) : Prop := address ∈ bdfRegion

instance (address : ℕ) : Decidable (IsBdfAddress address) := inferInstanceAs (Decidable (address ∈ bdfRegion))

/-- The type of memory of the options or of a table's entry. -/
inductive NvmName where
  | rram
  | flash
  | otp
  /-- A text that `set_nvm_name` raises an exception for. -/
  | other
  deriving DecidableEq, Repr

/-- The OTP, counted as the fields count it. -/
def otpOf (r : RramState) : Memory := fun a => r.cells (0x1A0000 + a)

/-- `check_bdf_calibration_flag` -/
def Calibrated (r : RramState) : Prop := bdfCalibrationFlag.value (otpOf r) = .num 1

instance (r : RramState) : Decidable (Calibrated r) := inferInstanceAs (Decidable (_ = _))

/-- `write_otp_field` on the target, the buffer having held `buffer` before. An exception is `false`. -/
def writeOtp (f : OtpField) (pblVersion : ℕ) (value : Text) (buffer : Memory) (r : RramState) : Bool × RramState :=
  match f.writeOtpField pblVersion value ⟨otpOf r, buffer⟩ with
  | .error x => (decide (x ≠ .raised), r)
  | .ok t =>
    (true, (otpRramWrite (0x1A0000 + f.address) (t.otp.read f.address (if f.size < 4 then 4 else f.size)) r).2)

/-- `set_bdf_calibration_flag(0)`. Four bytes are sent, so what the buffer held does not matter. -/
def clearBdfCalibrationFlag (r : RramState) : RramState :=
  (writeOtp bdfCalibrationFlag 0 ['0', 'x', '0'] (fun _ => 0) r).2

/-- The parameter buffer as `download` takes it: up to the end of the second buffer. -/
def dataBufSize : ℕ := 0x8000

/-- The loop of `download`: the image in pieces of `size` bytes, each written at 32 bits of its address. The fuel is
    at least the image's length; a piece that is refused raises an exception. -/
def programPieces (write : ℕ → Bytes → RramState → RramResult × RramState) (size : ℕ) :
    ℕ → ℕ → Bytes → RramState → Bool × RramState
  | 0, _, _, r => (true, r)
  | n + 1, address, image, r =>
    if image ≠ [] then
      let w := write (u32 address) (image.take size) r
      if w.1 = .ok then programPieces write size n (address + (image.take size).length) (image.drop size) w.2
      else (false, w.2)
    else (true, r)

/-- A call of `download` for a binary file. -/
structure Download where
  name : NvmName
  image : Bytes
  beginAddress : ℕ

namespace Download

variable (d : Download)

/-- Programming and the check of the CRC, which an empty file has no block for. -/
def transfer (write : ℕ → Bytes → RramState → RramResult × RramState) (dev : RramState → Device) (r : RramState) :
    Bool × RramState :=
  let p := programPieces write dataBufSize d.image.length d.beginAddress d.image r
  if p.1 = false then (false, p.2)
  else if d.image ≠ [] ∧ checksum 16384 (dev p.2) (u32 d.beginAddress) d.image.length ≠ some (crc32 d.image) then
    (false, p.2)
  else (true, p.2)

/-- `download` for the RRAM. -/
def rram (force : Bool) (r : RramState) : Bool × RramState :=
  if IsBdfAddress d.beginAddress ∧ Calibrated r ∧ force = false then (false, r)
  else if d.beginAddress % 4 ≠ 0 then (false, r)
  else
    let t := d.transfer nvmRramWrite .rram r
    if t.1 = true ∧ IsBdfAddress d.beginAddress ∧ force = true then (true, clearBdfCalibrationFlag t.2) else t

/-- `download`. -/
def run (flashDone force : Bool) (r : RramState) : Bool × RramState :=
  match d.name with
  | .rram => d.rram force r
  | .flash => (flashDone, r)
  | .otp => d.transfer otpRramWrite .otp r
  | .other => (false, r)

end Download

/-- `partial_erase`. With the OTP attached there is no erase function. -/
def partialErase (flashDone : Bool) (name : NvmName) (beginAddress size : ℕ) (r : RramState) : Bool × RramState :=
  match name with
  | .rram =>
    if beginAddress % 4 ≠ 0 then (false, r)
    else
      let e := rramErase (u32 beginAddress) (u32 size) r
      (decide (e.1 = .ok), e.2)
  | .flash => (flashDone, r)
  | .otp => (false, r)
  | .other => (false, r)

/-- One step of an operation. -/
inductive NvmAction where
  | download (d : Download)
  | partialErase (name : NvmName) (beginAddress size : ℕ)
  /-- `write_otp` of a field that may be written, the buffer of the target holding the given bytes. -/
  | writeOtp (f : OtpField) (pblVersion : ℕ) (value : Text) (buffer : Memory)

namespace NvmAction

variable (flashDone : NvmAction → Bool) (force : Bool)

/-- What a step does; `false` is an exception. -/
def run (a : NvmAction) (r : RramState) : Bool × RramState :=
  match a with
  | download d => d.run (flashDone a) force r
  | partialErase name beginAddress size => Nvm.partialErase (flashDone a) name beginAddress size r
  | writeOtp f pblVersion value buffer => Nvm.writeOtp f pblVersion value buffer r

/-- The steps that are taken, each with the state it is taken in. -/
def trace : List NvmAction → RramState → List (RramState × NvmAction)
  | [], _ => []
  | a :: as, r => (r, a) :: if (a.run flashDone force r).1 then trace as (a.run flashDone force r).2 else []

/-- The state after the steps. -/
def runAll : List NvmAction → RramState → RramState
  | [], r => r
  | a :: as, r =>
    if (a.run flashDone force r).1 then runAll as (a.run flashDone force r).2 else (a.run flashDone force r).2

end NvmAction

/-- An entry of the OTP section of a configuration file. -/
structure OtpEntry where
  field : OtpField
  pblVersion : ℕ
  value : Text
  buffer : Memory

/-- A section of a configuration file. -/
inductive ConfigSection where
  | otp (entries : List OtpEntry)
  | rram (images : List (Bytes × ℕ))

/-- An entry of a download table. Without a file it is an erase. -/
structure TableItem where
  file : Option Bytes
  beginAddress : ℕ
  size : ℕ
  location : NvmName

/-- The operations of the tool. -/
inductive NvmCommand where
  | download (d : Download)
  | partialErase (name : NvmName) (beginAddress size : ℕ)
  /-- `do_config`, whose downloads go to the memory of the options. -/
  | doConfig (name : NvmName) (sections : List ConfigSection)
  | writeDownloadTable (table : List TableItem)

namespace NvmCommand

def actions : NvmCommand → List NvmAction
  | download d => [.download d]
  | partialErase name beginAddress size => [.partialErase name beginAddress size]
  | doConfig name sections => sections.flatMap fun
    | .otp entries => entries.map fun e => .writeOtp e.field e.pblVersion e.value e.buffer
    | .rram images => images.map fun i => .download ⟨name, i.1, i.2⟩
  | writeDownloadTable table => table.map fun item =>
    match item.file with
    | none => .partialErase item.location item.beginAddress item.size
    | some image => .download ⟨item.location, image, item.beginAddress⟩

/-- The steps that a sequence of operations takes. -/
def trace (flashDone : NvmAction → Bool) (force : Bool) : List NvmCommand → RramState → List (RramState × NvmAction)
  | [], _ => []
  | c :: cs, r =>
    NvmAction.trace flashDone force c.actions r ++
      trace flashDone force cs (NvmAction.runAll flashDone force c.actions r)

end NvmCommand

/-! ### What is to hold of the region -/

/-- The two states have the same board data. -/
def SameBdf (r r' : RramState) : Prop := ∀ x ∈ bdfRegion, r'.cells x = r.cells x

/-- How many bytes of a range of `length` bytes are taken before a piece is refused. -/
def acceptedLength (size : ℕ) : ℕ → ℕ → ℕ → ℕ
  | 0, _, _ => 0
  | n + 1, address, length =>
    if length ≠ 0 ∧ NvmRramVerifyAddress (u32 address) (min size length) then
      min size length + acceptedLength size n (address + min size length) (length - min size length)
    else 0

namespace Download

variable (d : Download)

/-- The number of bytes of the image that reach the RRAM. -/
def accepted : ℕ := acceptedLength dataBufSize d.image.length d.beginAddress d.image.length

/-- What the image has for the region is what is there. -/
def Agrees (r : RramState) : Prop :=
  ∀ i < d.accepted, u32 d.beginAddress + i ∈ bdfRegion → d.image.getD i 0 = r.cells (u32 d.beginAddress + i)

/-- After a forced download that completes and changes the region, the flag is 0. -/
def ForcedClears (flashDone : NvmAction → Bool) (r : RramState) : Prop :=
  let t := NvmAction.run flashDone true (.download d) r
  t.1 = true → ¬SameBdf r t.2 → bdfCalibrationFlag.value (otpOf t.2) = .num 0

/-- An aligned image that is taken as a whole and changes the region starts in it. -/
def ForcedInside (r : RramState) : Prop :=
  d.name = .rram → d.beginAddress % 4 = 0 → d.accepted = d.image.length → ¬d.Agrees r → IsBdfAddress d.beginAddress

end Download

/-- The step is not one that changes the region: an aligned download to the RRAM is held up by the flag or agrees
    with the region, and an aligned erase that is accepted finds 0xFF wherever it meets the region. -/
def NvmAction.Spares (r : RramState) : NvmAction → Prop
  | download d =>
    d.name = .rram → d.beginAddress % 4 = 0 → ¬(IsBdfAddress d.beginAddress ∧ Calibrated r) → d.Agrees r
  | partialErase name beginAddress size =>
    name = .rram → beginAddress % 4 = 0 → RramVerifyEraseAddress (u32 beginAddress) (u32 size) →
      ∀ x ∈ bdfRegion, x ∈ (⟨u32 beginAddress, u32 size⟩ : Range) → r.cells x = 0xFF
  | writeOtp .. => True

/-! ### Writes and the region -/

theorem SameBdf.refl (r : RramState) : SameBdf r r := fun _ _ => rfl

theorem SameBdf.trans {r r' r'' : RramState} (h : SameBdf r r') (h' : SameBdf r' r'') : SameBdf r r'' :=
  fun x hx => (h' x hx).trans (h x hx)

theorem SameBdf.symm {r r' : RramState} (h : SameBdf r r') : SameBdf r' r := fun x hx => (h x hx).symm

/-- A store keeps the region if and only if it has the same bytes for it. -/
theorem sameBdf_store_iff {r r' : RramState} {a : ℕ} {data : Bytes} (h : r'.cells = r.cells.store a data) :
    SameBdf r r' ↔ ∀ i < data.length, a + i ∈ bdfRegion → data.getD i 0 = r.cells (a + i) := by
  rw [SameBdf, h]
  constructor
  · intro hsame i hi hin
    rw [← hsame _ hin, Memory.store_in hi]
  · intro hdata x hx
    by_cases hin : a ≤ x ∧ x < a + data.length
    · obtain ⟨i, rfl⟩ := Nat.exists_eq_add_of_le hin.1
      rw [Memory.store_in (by omega), hdata i (by omega) hx]
    · exact Memory.store_out (by omega)

/-- The OTP is far below the region. -/
theorem otpRramWrite_sameBdf (destination : ℕ) (source : Bytes) (r : RramState) :
    SameBdf r (otpRramWrite destination source r).2 := by
  rw [otpRramWrite]
  split
  · rename_i hv
    obtain ⟨-, hle, -, hlen⟩ := hv
    have hlength : (if readPermissionAddress = destination then clearReadPermission source else source).length =
        source.length := by
      split
      · exact clearReadPermission_length source
      · rfl
    refine (sameBdf_store_iff (rramWrite_wrote _ _ _).1).mpr fun i hi hin => ?_
    rw [hlength] at hi
    have hbelow : 0x37A000 ≤ destination + i := hin.1
    omega
  · exact .refl r

theorem programPieces_otp_sameBdf (size n address : ℕ) (image : Bytes) (r : RramState) :
    SameBdf r (programPieces otpRramWrite size n address image r).2 := by
  induction n generalizing address image r with
  | zero => exact .refl r
  | succ n ih =>
    have hpiece := otpRramWrite_sameBdf (u32 address) (image.take size) r
    rw [programPieces]
    split
    · dsimp only
      split
      · exact hpiece.trans (ih _ _ _)
      · exact hpiece
    · exact .refl r

theorem writeOtp_sameBdf (f : OtpField) (pblVersion : ℕ) (value : Text) (buffer : Memory) (r : RramState) :
    SameBdf r (writeOtp f pblVersion value buffer r).2 := by
  rw [writeOtp]
  split
  · exact .refl r
  · exact otpRramWrite_sameBdf _ _ r

theorem transfer_snd (d : Download) (write : ℕ → Bytes → RramState → RramResult × RramState)
    (dev : RramState → Device) (r : RramState) :
    (d.transfer write dev r).2 = (programPieces write dataBufSize d.image.length d.beginAddress d.image r).2 := by
  rw [Download.transfer]
  split
  · rfl
  · split
    · rfl
    · rfl

/-! ### The loop of `download` -/

/-- The loop stores the accepted bytes of the image, and it ends without an exception if and only if these are all
    of them. By induction on the pieces. -/
theorem programPieces_rram {size : ℕ} (hsize : 0 < size) (n address : ℕ) (image : Bytes) (r : RramState)
    (hn : image.length ≤ n) :
    (programPieces nvmRramWrite size n address image r).2.cells =
        r.cells.store (u32 address) (image.take (acceptedLength size n address image.length)) ∧
      ((programPieces nvmRramWrite size n address image r).1 = true ↔
        acceptedLength size n address image.length = image.length) := by
  induction n generalizing address image r with
  | zero =>
    obtain rfl := List.eq_nil_of_length_eq_zero (Nat.le_zero.mp hn)
    exact ⟨(Memory.store_nil _ _).symm, iff_of_true rfl rfl⟩
  | succ n ih =>
    rw [programPieces, acceptedLength]
    by_cases hnil : image = []
    · subst hnil
      rw [if_neg (not_not.mpr rfl), if_neg fun h => h.1 rfl]
      exact ⟨(Memory.store_nil _ _).symm, iff_of_true rfl rfl⟩
    · have hlen : image.length ≠ 0 := fun h => hnil (List.eq_nil_of_length_eq_zero h)
      have htake : (image.take size).length = min size image.length := List.length_take
      rw [if_pos hnil, nvmRramWrite, htake]
      by_cases hv : NvmRramVerifyAddress (u32 address) (min size image.length)
      · have hdrop : (image.drop size).length = image.length - min size image.length := by
          rw [List.length_drop]
          omega
        obtain ⟨hcells, hok⟩ := ih (address + min size image.length) (image.drop size)
          (rramWrite (u32 address) (image.take size) r) (by omega)
        have hvs := hv
        obtain ⟨-, hle, -, hroom⟩ := hvs
        have hnext : u32 (address + min size image.length) = u32 address + min size image.length := by
          rw [u32] at hle hroom ⊢
          rw [u32]
          omega
        rw [hdrop] at hcells hok
        rw [if_pos hv]
        dsimp only
        rw [if_pos rfl, if_pos (And.intro hlen hv)]
        refine ⟨?_, hok.trans (by omega)⟩
        have hhead : image.take size = image.take (min size image.length) := List.take_eq_take_min
        have htail : image.drop size = image.drop (min size image.length) := by
          rcases Nat.le_total size image.length with h | h
          · rw [min_eq_left h]
          · rw [min_eq_right h, List.drop_eq_nil_of_le h, List.drop_length]
        rw [hcells, (rramWrite_wrote _ _ _).1, hnext, ← htake, Memory.store_append, List.take_add, htake, ← hhead,
          ← htail]
      · rw [if_neg hv]
        dsimp only
        rw [if_neg (by decide), if_neg fun h : _ ∧ NvmRramVerifyAddress _ _ => hv h.2]
        exact ⟨(Memory.store_nil _ _).symm, iff_of_false Bool.false_ne_true (Ne.symm hlen)⟩

theorem acceptedLength_le (size n address length : ℕ) : acceptedLength size n address length ≤ length := by
  induction n generalizing address length with
  | zero => exact Nat.zero_le _
  | succ n ih =>
    rw [acceptedLength]
    split
    · have h := ih (address + min size length) (length - min size length)
      omega
    · exact Nat.zero_le _

namespace Download

variable {d : Download}

theorem accepted_le : d.accepted ≤ d.image.length := acceptedLength_le _ _ _ _

theorem transfer_cells (r : RramState) :
    (d.transfer nvmRramWrite .rram r).2.cells = r.cells.store (u32 d.beginAddress) (d.image.take d.accepted) := by
  rw [transfer_snd, (programPieces_rram (by decide) _ _ _ _ (le_refl _)).1, accepted]

/-- A transfer keeps the region if and only if the image agrees with it. -/
theorem transfer_sameBdf_iff (r : RramState) : SameBdf r (d.transfer nvmRramWrite .rram r).2 ↔ d.Agrees r := by
  have hlen : (d.image.take d.accepted).length = d.accepted := List.length_take_of_le accepted_le
  rw [sameBdf_store_iff (transfer_cells r), Agrees, hlen]
  refine forall_congr' fun i => forall_congr' fun hi => ?_
  rw [List.getD_eq_getElem?_getD, List.getD_eq_getElem?_getD, List.getElem?_take_of_lt hi]

end Download

/-! ### The steps -/

theorem rramErase_sameBdf_iff {a n : ℕ} (r : RramState) (hv : RramVerifyEraseAddress a n) :
    SameBdf r (rramErase a n r).2 ↔ ∀ x ∈ bdfRegion, x ∈ (⟨a, n⟩ : Range) → r.cells x = 0xFF := by
  rw [sameBdf_store_iff (rramErase_wrote a n r hv).1, List.length_replicate]
  constructor
  · rintro h x hx ⟨hle, hlt⟩
    obtain ⟨i, rfl⟩ := Nat.exists_eq_add_of_le hle
    have hi : i < n := Nat.lt_of_add_lt_add_left hlt
    rw [← h i hi hx, List.getD_replicate _ hi]
  · intro h i hi hx
    rw [h _ hx ⟨Nat.le_add_right a i, Nat.add_lt_add_left hi a⟩, List.getD_replicate _ hi]

/-- Without force a step keeps the region if and only if it spares it. -/
theorem run_sameBdf_iff (flashDone : NvmAction → Bool) (a : NvmAction) (r : RramState) :
    SameBdf r (a.run flashDone false r).2 ↔ a.Spares r := by
  cases a with
  | download d =>
    rw [NvmAction.run, Download.run, NvmAction.Spares]
    cases hname : d.name with
    | rram =>
      dsimp only
      rw [Download.rram]
      by_cases hheld : IsBdfAddress d.beginAddress ∧ Calibrated r
      · rw [if_pos ⟨hheld.1, hheld.2, rfl⟩]
        exact iff_of_true (.refl r) fun _ _ h => absurd hheld h
      · rw [if_neg fun h => hheld ⟨h.1, h.2.1⟩]
        by_cases halign : d.beginAddress % 4 = 0
        · rw [if_neg (not_not.mpr halign), if_neg fun h => Bool.false_ne_true h.2.2, Download.transfer_sameBdf_iff]
          exact ⟨fun h _ _ _ => h, fun h => h rfl halign hheld⟩
        · rw [if_pos halign]
          exact iff_of_true (.refl r) fun _ h => absurd h halign
    | flash => exact iff_of_true (.refl r) (by rintro ⟨⟩)
    | otp =>
      refine iff_of_true ?_ (by rintro ⟨⟩)
      dsimp only
      rw [transfer_snd]
      exact programPieces_otp_sameBdf _ _ _ _ r
    | other => exact iff_of_true (.refl r) (by rintro ⟨⟩)
  | partialErase name beginAddress size =>
    cases name with
    | rram =>
      rw [NvmAction.run, Nvm.partialErase, NvmAction.Spares]
      by_cases halign : beginAddress % 4 = 0
      · rw [if_neg (not_not.mpr halign)]
        by_cases hv : RramVerifyEraseAddress (u32 beginAddress) (u32 size)
        · rw [rramErase_sameBdf_iff r hv]
          exact ⟨fun h _ _ _ => h, fun h => h rfl halign hv⟩
        · rw [rramErase, if_neg hv]
          exact iff_of_true (.refl r) fun _ _ h => absurd h hv
      · rw [if_pos halign]
        exact iff_of_true (.refl r) fun _ h => absurd h halign
    | flash => exact iff_of_true (.refl r) (by rintro ⟨⟩)
    | otp => exact iff_of_true (.refl r) (by rintro ⟨⟩)
    | other => exact iff_of_true (.refl r) (by rintro ⟨⟩)
  | writeOtp f pblVersion value buffer => exact iff_of_true (writeOtp_sameBdf _ _ _ _ r) trivial

section Runs

variable (flashDone : NvmAction → Bool)

/-- Where the region is as in `r₀`, the steps keep it so if and only if each spares it, and then it is so at the
    end. By induction on the steps. -/
theorem trace_sameBdf_iff {r₀ : RramState} (as : List NvmAction) (r : RramState) (h : SameBdf r₀ r) :
    ((∀ p ∈ NvmAction.trace flashDone false as r, SameBdf r₀ (p.2.run flashDone false p.1).2) ↔
      ∀ p ∈ NvmAction.trace flashDone false as r, p.2.Spares p.1) ∧
    ((∀ p ∈ NvmAction.trace flashDone false as r, p.2.Spares p.1) →
      SameBdf r₀ (NvmAction.runAll flashDone false as r)) := by
  induction as generalizing r with
  | nil => exact ⟨iff_of_true (by rintro p ⟨⟩) (by rintro p ⟨⟩), fun _ => h⟩
  | cons a as ih =>
    have hstep : SameBdf r₀ (a.run flashDone false r).2 ↔ a.Spares r := by
      rw [← run_sameBdf_iff flashDone]
      exact ⟨h.symm.trans, h.trans⟩
    rw [NvmAction.trace, NvmAction.runAll, List.forall_mem_cons, List.forall_mem_cons]
    by_cases hdone : (a.run flashDone false r).1 = true
    · rw [if_pos hdone, if_pos hdone]
      by_cases hspare : a.Spares r
      · obtain ⟨hiff, hend⟩ := ih _ (hstep.mpr hspare)
        exact ⟨and_congr hstep hiff, fun hall => hend hall.2⟩
      · exact ⟨iff_of_false (fun hall => hspare (hstep.mp hall.1)) fun hall => hspare hall.1,
          fun hall => absurd hall.1 hspare⟩
    · rw [if_neg hdone, if_neg hdone]
      exact ⟨and_congr hstep (iff_of_true (by rintro p ⟨⟩) (by rintro p ⟨⟩)), fun hall => hstep.mpr hall.1⟩

theorem commands_sameBdf_iff {r₀ : RramState} (cs : List NvmCommand) (r : RramState) (h : SameBdf r₀ r) :
    (∀ p ∈ NvmCommand.trace flashDone false cs r, SameBdf r₀ (p.2.run flashDone false p.1).2) ↔
      ∀ p ∈ NvmCommand.trace flashDone false cs r, p.2.Spares p.1 := by
  induction cs generalizing r with
  | nil => exact iff_of_true (by rintro p ⟨⟩) (by rintro p ⟨⟩)
  | cons c cs ih =>
    obtain ⟨hiff, hend⟩ := trace_sameBdf_iff flashDone c.actions r h
    rw [NvmCommand.trace, List.forall_mem_append, List.forall_mem_append]
    by_cases hspare : ∀ p ∈ NvmAction.trace flashDone false c.actions r, p.2.Spares p.1
    · exact and_congr hiff (ih _ (hend hspare))
    · exact iff_of_false (fun hall => hspare (hiff.mp hall.1)) fun hall => hspare hall.1

end Runs

/-! ### A forced download -/

/-- An image that is taken as a whole lies in the RRAM. -/
theorem acceptedLength_full {size : ℕ} (hsize : size % 4 = 0) (n address length : ℕ) (hpos : 0 < length)
    (h : acceptedLength size n address length = length) :
    0x200000 ≤ u32 address ∧ u32 address % 4 = 0 ∧ u32 address + length ≤ 0x380000 := by
  induction n generalizing address length with
  | zero => exact absurd h (Nat.ne_of_lt hpos)
  | succ n ih =>
    rw [acceptedLength] at h
    by_cases hv : length ≠ 0 ∧ NvmRramVerifyAddress (u32 address) (min size length)
    · rw [if_pos hv] at h
      obtain ⟨hge, hle, halign, hroom⟩ := hv.2
      refine ⟨hge, halign, ?_⟩
      by_cases hlast : length ≤ size
      · omega
      · have hnext : u32 (address + min size length) = u32 address + min size length := by
          rw [u32] at hle hroom ⊢
          rw [u32]
          omega
        have hrest := ih (address + min size length) (length - min size length) (by omega) (by omega)
        omega
    · rw [if_neg hv] at h
      omega

/-- An image of which anything is taken begins in the RRAM. -/
theorem acceptedLength_pos {size n address length : ℕ} (h : 0 < acceptedLength size n address length) :
    0x200000 ≤ u32 address := by
  cases n with
  | zero => exact absurd h (lt_irrefl 0)
  | succ n =>
    rw [acceptedLength] at h
    split at h
    · rename_i hv
      exact hv.2.1
    · exact absurd h (lt_irrefl 0)

/-- In the RRAM every read of the checksum succeeds. -/
theorem checksumLoop_rram {bufferSize : ℕ} (hs : 0 < bufferSize) (h4 : bufferSize % 4 = 0) (r : RramState)
    (n i address length : ℕ) (result : BitVec 32) (hge : 0x200000 ≤ address) (halign : address % 4 = 0)
    (hle : address + length ≤ 0x380000) : (checksumLoop bufferSize (.rram r) n i address length result).isSome := by
  induction n generalizing i address length result with
  | zero => rfl
  | succ n ih =>
    rw [checksumLoop]
    by_cases h0 : length = 0
    · rw [if_neg (not_not.mpr h0)]
      rfl
    · rw [if_pos h0]
      dsimp only
      obtain ⟨k, hk, hpos, hkl, hcut⟩ : ∃ k, k = (if length > bufferSize then bufferSize else length) ∧ 0 < k ∧
          k ≤ length ∧ (k = length ∨ k % 4 = 0) :=
        ⟨_, rfl, by split <;> omega, by split <;> omega, by split <;> omega⟩
      have hv : NvmRramVerifyAddress address k := ⟨hge, by omega, halign, by omega⟩
      rw [← hk, Device.nvmRead, nvmRramRead, if_pos hv]
      dsimp only
      rw [if_pos rfl]
      dsimp only
      rw [u32_of_lt (by omega)]
      rcases hcut with rfl | hcut
      · rw [Nat.sub_self]
        cases n with
        | zero => rfl
        | succ n =>
          rw [checksumLoop, if_neg (by simp)]
          rfl
      · exact ih _ _ _ _ (by omega) (by omega) (by omega)

namespace Download

variable {d : Download}

/-- A transfer ends without an exception if and only if the image is taken as a whole: the checksum agrees. -/
theorem transfer_fst_iff (r : RramState) :
    (d.transfer nvmRramWrite .rram r).1 = true ↔ d.accepted = d.image.length := by
  obtain ⟨hcells, hdone⟩ := programPieces_rram (by decide : 0 < dataBufSize) d.image.length d.beginAddress d.image r
    (le_refl _)
  rw [transfer, accepted]
  by_cases hall : acceptedLength dataBufSize d.image.length d.beginAddress d.image.length = d.image.length
  · have hp := hdone.mpr hall
    rw [hall, List.take_length] at hcells
    rw [hp, if_neg (by decide), if_neg]
    · exact iff_of_true rfl hall
    · rintro ⟨hne, hcrc⟩
      have hpos : 0 < d.image.length := List.length_pos_iff.mpr hne
      obtain ⟨hge, halign, hle⟩ := acceptedLength_full (by decide) _ _ _ hpos hall
      obtain ⟨c, hc⟩ := Option.isSome_iff_exists.mp (checksumLoop_rram (by decide : 0 < 16384) (by decide)
        (programPieces nvmRramWrite dataBufSize d.image.length d.beginAddress d.image r).2 d.image.length 0
        (u32 d.beginAddress) d.image.length 0xFFFFFFFF#32 hge halign hle)
      have heq := checksumLoop_eq (by decide : 0 < 16384) _ _ _ _ _ _ (le_refl _) (u32_lt _) hc
      refine hcrc ?_
      rw [checksum, hc, Option.map_some, heq, Device.cells, hcells, Memory.read_store, crc32, Crc.crc]
  · have hp : (programPieces nvmRramWrite dataBufSize d.image.length d.beginAddress d.image r).1 = false :=
      Bool.eq_false_iff.mpr fun h => hall (hdone.mp h)
    rw [if_pos hp]
    exact iff_of_false Bool.false_ne_true hall

/-- A transfer to the RRAM does not touch the OTP. -/
theorem transfer_calibrated (r : RramState) :
    bdfCalibrationFlag.value (otpOf (d.transfer nvmRramWrite .rram r).2) = bdfCalibrationFlag.value (otpOf r) := by
  rw [OtpField.bdf_value_eq_iff, otpOf, otpOf, transfer_cells]
  by_cases h0 : d.accepted = 0
  · rw [h0, List.take_zero, Memory.store_nil]
  · have hge := acceptedLength_pos (Nat.pos_of_ne_zero h0)
    exact Memory.store_out (.inl (Nat.lt_of_lt_of_le (by decide) hge))

end Download

/-- The flag is cleared. -/
theorem clearBdfCalibrationFlag_value (r : RramState) :
    bdfCalibrationFlag.value (otpOf (clearBdfCalibrationFlag r)) = .num 0 := by
  have hwrite := (@OtpField.writeOtpField_narrow_iff bdfCalibrationFlag 0 ['0', 'x', '0'] ⟨otpOf r, fun _ => 0⟩ _
    (fun h => absurd h.1 (by decide)) (by decide) (by decide)).mpr ⟨0, by decide, by decide, rfl⟩
  have hvalue := OtpField.value_sendNarrow (f := bdfCalibrationFlag) (by decide) (by decide) (by decide) 0
    ⟨otpOf r, fun _ => 0⟩
  generalize bdfCalibrationFlag.send 4 _ ⟨otpOf r, fun _ => 0⟩ = t at hwrite hvalue
  have hcleared : (0 % 2 ^ bdfCalibrationFlag.length : ℤ).toNat = 0 := by decide
  rw [hcleared] at hvalue
  rw [← hvalue, OtpField.bdf_value_eq_iff, clearBdfCalibrationFlag, writeOtp, hwrite]
  have hlen : (t.otp.read bdfCalibrationFlag.address 4).length = 4 := Memory.length_read _ _ _
  have hverify : OtpRramVerifyAddress (0x1A0000 + bdfCalibrationFlag.address) 4 := by decide
  dsimp only
  rw [if_pos (by decide), otpRramWrite, hlen, if_pos hverify, if_neg (by decide), otpOf,
    (rramWrite_wrote _ _ _).1]
  have hfirst := Memory.store_in (m := r.cells) (a := 0x1A0000 + bdfCalibrationFlag.address) (i := 0)
    (d := t.otp.read bdfCalibrationFlag.address 4) (by rw [hlen]; decide)
  rw [Nat.add_zero] at hfirst
  rw [hfirst, Memory.getD_read _ (by decide), Nat.add_zero]

theorem forcedClears_iff (flashDone : NvmAction → Bool) {r : RramState} (hcal : Calibrated r) (d : Download) :
    d.ForcedClears flashDone r ↔ d.ForcedInside r := by
  have hsame : SameBdf r (NvmAction.run flashDone true (.download d) r).2 → d.ForcedClears flashDone r :=
    fun h _ hne => absurd h hne
  rw [Download.ForcedInside]
  cases hname : d.name with
  | rram =>
    have hrun : NvmAction.run flashDone true (.download d) r = d.rram true r := by
      rw [NvmAction.run, Download.run, hname]
    rw [Download.ForcedClears, hrun, Download.rram, if_neg fun h => Bool.false_ne_true h.2.2.symm]
    by_cases halign : d.beginAddress % 4 = 0
    · rw [if_neg (not_not.mpr halign)]
      by_cases hin : IsBdfAddress d.beginAddress
      · refine iff_of_true (fun hdone _ => ?_) fun _ _ _ _ => hin
        dsimp only at hdone ⊢
        split
        · exact clearBdfCalibrationFlag_value _
        · rename_i hnot
          rw [if_neg hnot] at hdone
          exact absurd ⟨hdone, hin, rfl⟩ hnot
      · have hflag : ¬bdfCalibrationFlag.value (otpOf (d.transfer nvmRramWrite .rram r).2) = .num 0 := by
          rw [Download.transfer_calibrated, hcal]
          decide
        dsimp only
        rw [if_neg fun h => hin h.2.1, Download.transfer_fst_iff, Download.transfer_sameBdf_iff]
        exact ⟨fun h _ _ hall hne => absurd (h hall hne) hflag, fun h hall hne => absurd (h rfl halign hall hne) hin⟩
    · rw [if_pos halign]
      exact iff_of_true (fun h => absurd h Bool.false_ne_true) fun _ h => absurd h halign
  | flash =>
    refine iff_of_true (hsame ?_) nofun
    rw [NvmAction.run, Download.run, hname]
    exact .refl r
  | otp =>
    refine iff_of_true (hsame ?_) nofun
    rw [NvmAction.run, Download.run, hname]
    dsimp only
    rw [transfer_snd]
    exact programPieces_otp_sameBdf _ _ _ _ r
  | other =>
    refine iff_of_true (hsame ?_) nofun
    rw [NvmAction.run, Download.run, hname]
    exact .refl r

/-- From a calibrated device the steps of every sequence of operations keep the board data, and a forced download
    that changes it clears the flag, if and only if every step taken spares the region and a forced download that
    changes it starts in it. -/
theorem calibrated_bdf_iff (flashDone : NvmAction → Bool) {r : RramState} (hcal : Calibrated r) (cs : List NvmCommand)
    (d : Download) :
    ((∀ p ∈ NvmCommand.trace flashDone false cs r, SameBdf r (p.2.run flashDone false p.1).2) ∧
        d.ForcedClears flashDone r) ↔
      (∀ p ∈ NvmCommand.trace flashDone false cs r, p.2.Spares p.1) ∧ d.ForcedInside r :=
  and_congr (commands_sameBdf_iff flashDone cs r (.refl r)) (forcedClears_iff flashDone hcal d)

/-- A device with the flag set, and zeros otherwise. -/
def calibratedBoard : RramState := ⟨fun a => if a = 0x1A0274 then 1 else 0, []⟩

/-- An erase of a row outside the region. -/
theorem calibrated_bdf_outside :
    (∀ p ∈ NvmCommand.trace (fun _ => true) false [.partialErase .rram 0x370000 16] calibratedBoard,
        SameBdf calibratedBoard (p.2.run (fun _ => true) false p.1).2) ∧
      Download.ForcedClears ⟨.flash, [], 0⟩ (fun _ => true) calibratedBoard := by
  refine (calibrated_bdf_iff (fun _ => true) (by decide) _ _).mpr ⟨?_, nofun⟩
  intro p hp
  rw [NvmCommand.trace, NvmCommand.trace, List.append_nil, NvmCommand.actions, NvmAction.trace, NvmAction.trace,
    ite_self, List.mem_singleton] at hp
  subst hp
  rintro - - - x ⟨hge, -⟩ ⟨-, hlt⟩
  have hstop : x < 0x370000 + 16 := hlt
  have hstart : 0x37A000 ≤ x := hge
  omega

/-- An erase of the first row of the region. -/
theorem calibrated_bdf_erased :
    Calibrated calibratedBoard ∧
      ¬∀ p ∈ NvmCommand.trace (fun _ => true) false [.partialErase .rram 0x37A000 16] calibratedBoard,
        SameBdf calibratedBoard (p.2.run (fun _ => true) false p.1).2 := by
  refine ⟨by decide, fun h => ?_⟩
  have hspare := (commands_sameBdf_iff (fun _ => true) _ _ (.refl _)).mp h _ List.mem_cons_self
  exact absurd (hspare rfl rfl (by decide) 0x37A000 (by decide) (by decide)) (by decide)

end Qcc730.Nvm
