import Qcc730.Lib.Bytes
import Qcc730.Lib.Slots

/-! Which addresses of RRAM may be read or written (`rram_address_range_check` in `nt_mem.c`).

    Main RRAM is open. The OTP area is cut into twenty regions, each with a lock bit for reading and one for
    writing in the permission region, which the check reads through itself. It looks at the first address and at
    the first address after the range, so a range that ends where a region, the OTP area or main RRAM ends is
    judged by what comes next. -/

namespace Qcc730.Rram
open Lib

/-! ### The linker script -/

/-- `__rram_region_start_addr` -/
@[simp] abbrev rramRegionStartAddr : ℕ := 0x200000

/-- `__rram_region_end_address`, the first address after main RRAM -/
@[simp] abbrev rramRegionEndAddress : ℕ := 0x380000

/-- `__OTP_region_st_addr` -/
@[simp] abbrev otpRegionStAddr : ℕ := 0x1A0000

/-- `__OTP_region_end_addr`, the first address after the OTP area -/
@[simp] abbrev otpRegionEndAddr : ℕ := 0x1A1000

/-- `_MEM_RRAM_MAIN_ADDR_CHK` -/
def MemRramMainAddrChk (addr : ℕ) : Prop := rramRegionStartAddr ≤ addr ∧ addr < rramRegionEndAddress

/-- `_MEM_RRAM_OTP_ADDR_CHK` -/
def MemRramOtpAddrChk (addr : ℕ) : Prop := otpRegionStAddr ≤ addr ∧ addr < otpRegionEndAddr

instance (a : ℕ) : Decidable (MemRramMainAddrChk a) := inferInstanceAs (Decidable (_ ∧ _))

instance (a : ℕ) : Decidable (MemRramOtpAddrChk a) := inferInstanceAs (Decidable (_ ∧ _))

theorem otpChk_iff {a : ℕ} : MemRramOtpAddrChk a ↔ 0x1A0000 ≤ a ∧ a < 0x1A1000 := Iff.rfl

theorem mainChk_iff {a : ℕ} : MemRramMainAddrChk a ↔ 0x200000 ≤ a ∧ a < 0x380000 := Iff.rfl

/-! ### Regions and their locks -/

/-- `nt_otp_region_per_status`: the access that is asked for. -/
inductive PerStatus where
  | readLocked
  | writeLocked
  deriving DecidableEq, Repr

/-- The error codes of `nt_mem.c`. -/
inductive Errno where
  | eperm
  | einval
  | eio
  | efault
  | ebade
  deriving DecidableEq, Repr

/-- `otp_region_lock_map_t` -/
structure OtpRegionLockMap where
  regionSize : ℕ
  lockNum : ℕ
  deriving DecidableEq, Repr

/-- `g_otp_region_lock_map` -/
def gOtpRegionLockMap : List OtpRegionLockMap :=
  [⟨32, 0⟩, ⟨16, 1⟩, ⟨16, 2⟩, ⟨16, 9⟩, ⟨16, 3⟩, ⟨16, 4⟩, ⟨32, 5⟩, ⟨16, 6⟩, ⟨16, 7⟩, ⟨16, 8⟩, ⟨256, 10⟩, ⟨32, 11⟩,
    ⟨16, 13⟩, ⟨16, 16⟩, ⟨64, 17⟩, ⟨16, 19⟩, ⟨16, 14⟩, ⟨16, 15⟩, ⟨16, 12⟩, ⟨3456, 20⟩]

/-- `RW_PERMISSION_REGION` -/
abbrev rwPermissionRegion : ℕ := 2

/-- `MAX_REGION` -/
abbrev maxRegion : ℕ := 21

/-- The loop of `address_to_region_num_map`. -/
def regionLoop (address : ℕ) : List OtpRegionLockMap → ℕ → ℕ → ℕ
  | [], _, count => count
  | r :: rs, start, count =>
    if start ≤ address ∧ address < start + r.regionSize then count
    else regionLoop address rs (start + r.regionSize) (count + 1)

/-- `address_to_region_num_map` -/
def addressToRegionNumMap (address : ℕ) : ℕ := regionLoop address gOtpRegionLockMap otpRegionStAddr 0

/-- `read_perm` and `write_perm` of the permission region. -/
def permAddr : PerStatus → ℕ
  | .readLocked => otpRegionStAddr + 48
  | .writeLocked => otpRegionStAddr + 51

/-- `nt_otp_region_locked`, over the read of one byte. -/
def ntOtpRegionLocked (read : ℕ → Except Errno UInt8) (regionNum : ℕ) (rdWrLock : PerStatus) : Except Errno Bool :=
  if maxRegion ≤ regionNum then .error .einval
  else
    match read (permAddr rdWrLock + regionNum / 8) with
    | .error _ => .error .eio
    | .ok lockByte => .ok (lockByte.toNat.testBit (regionNum % 8))

/-- The lock number of a region. -/
def lockNum (region : ℕ) : ℕ := (gOtpRegionLockMap.getD region ⟨0, 0⟩).lockNum

/-- The test in the loop of `check_otp_region_rw_permission`: an error counts as a lock. -/
def isUnlocked : Except Errno Bool → Bool
  | .ok false => true
  | _ => false

/-- `check_otp_region_rw_permission` -/
def checkOtpRegionRwPermission (locked : ℕ → Except Errno Bool) (address length : ℕ) (rwLockCheck : PerStatus) : Bool :=
  let startingRegionNo := addressToRegionNumMap address
  let endingRegionNo := addressToRegionNumMap (u32 (address + length))
  if gOtpRegionLockMap.length ≤ startingRegionNo ∨ gOtpRegionLockMap.length ≤ endingRegionNo then false
  else if startingRegionNo = endingRegionNo ∧ startingRegionNo = rwPermissionRegion ∧
      rwLockCheck = .readLocked then true
  else (List.range' startingRegionNo (endingRegionNo + 1 - startingRegionNo)).all fun region =>
    isUnlocked (locked (lockNum region))

/-- `rram_address_range_check` down to a depth: the lock bytes are read by `nt_rram_read`, which checks their
    address first. -/
def rangeCheck (m : Memory) : ℕ → ℕ → ℕ → PerStatus → Bool
  | 0, _, _, _ => false
  | n + 1, rramAdd, dataLen, rdWrLock =>
    let ending := u32 (rramAdd + dataLen)
    if MemRramOtpAddrChk rramAdd ∧ MemRramOtpAddrChk ending then
      -- the length is passed on as 16 bits
      checkOtpRegionRwPermission
        (fun k => ntOtpRegionLocked
          (fun address => if rangeCheck m n address 1 .readLocked then .ok (m address) else .error .einval) k rdWrLock)
        rramAdd (dataLen % 65536) rdWrLock
    else if MemRramOtpAddrChk rramAdd ∨ MemRramOtpAddrChk ending then false
    else if ¬(MemRramMainAddrChk rramAdd ∨ MemRramOtpAddrChk rramAdd) ∨
        ¬(MemRramMainAddrChk ending ∨ MemRramOtpAddrChk ending) then false
    else true

/-- `rram_address_range_check` -/
def rramAddressRangeCheck (m : Memory) (rramAdd dataLen : ℕ) (rdWrLock : PerStatus) : Bool :=
  rangeCheck m 2 rramAdd dataLen rdWrLock

/-! ### What the check is for -/

/-- Where a region begins; region 20 would begin at the end of the OTP area. -/
def regionStart (region : ℕ) : ℕ := otpRegionStAddr + Slots.start (gOtpRegionLockMap.map (·.regionSize)) region

/-- The lock bit with the given number. -/
def lockBit (m : Memory) (access : PerStatus) (k : ℕ) : Bool := (m (permAddr access + k / 8)).toNat.testBit (k % 8)

/-- The region's lock bit for the access is set. -/
def Locked (m : Memory) (access : PerStatus) (region : ℕ) : Prop := lockBit m access (lockNum region) = true

instance (m : Memory) (access : PerStatus) (r : ℕ) : Decidable (Locked m access r) :=
  inferInstanceAs (Decidable (_ = _))

/-- The region may be accessed; the permission region may always be read. -/
def Permitted (m : Memory) (access : PerStatus) (region : ℕ) : Prop :=
  Locked m access region → region = rwPermissionRegion ∧ access = .readLocked

/-- `[a, a + l)` meets the region. -/
def Touches (a l region : ℕ) : Prop := regionStart region < a + l ∧ a < regionStart (region + 1)

/-- Every region that `[a, a + l)` meets may be accessed. -/
def AllPermitted (m : Memory) (a l : ℕ) (access : PerStatus) : Prop :=
  ∀ region < gOtpRegionLockMap.length, Touches a l region → Permitted m access region

/-- `[a, a + l)` may be accessed. -/
def Allowed (m : Memory) (a l : ℕ) (access : PerStatus) : Prop :=
  (rramRegionStartAddr ≤ a ∧ a + l ≤ rramRegionEndAddress) ∨
    (otpRegionStAddr ≤ a ∧ a + l ≤ otpRegionEndAddr ∧ AllPermitted m a l access)

/-- A read inside the permission region. -/
def PermInside (a l : ℕ) (access : PerStatus) : Prop :=
  access = .readLocked ∧ regionStart 2 ≤ a ∧ a + l < regionStart 3

/-- A lock that says nothing about the access and still refuses it: the one of the region that begins where the
    range ends, or the read lock of the permission region for a read that is not inside it. -/
def Overruled (m : Memory) (a l : ℕ) (access : PerStatus) : Prop :=
  (∃ region < gOtpRegionLockMap.length, regionStart region = a + l ∧ Locked m access region) ∨
    (access = .readLocked ∧ Locked m access rwPermissionRegion ∧ Touches a l rwPermissionRegion ∧ ¬PermInside a l access)

/-- The ranges the check gets wrong: those that end where main RRAM or the OTP area ends, those that wrap around
    into main RRAM, and those in the OTP area with a lock that overrules. -/
def Misjudged (m : Memory) (a l : ℕ) (access : PerStatus) : Prop :=
  (rramRegionStartAddr ≤ a ∧ a + l = rramRegionEndAddress) ∨
    (MemRramMainAddrChk a ∧ 2 ^ 32 + rramRegionStartAddr ≤ a + l) ∨
    (otpRegionStAddr ≤ a ∧ a + l = otpRegionEndAddr ∧ AllPermitted m a l access) ∨
    (otpRegionStAddr ≤ a ∧ a + l < otpRegionEndAddr ∧ AllPermitted m a l access ∧ Overruled m a l access)

/-! ### The regions of the table -/

theorem regionStart_mono {j k : ℕ} (h : j ≤ k) : regionStart j ≤ regionStart k :=
  Nat.add_le_add_left (Slots.start_mono h) _

theorem regionStart_le_next (k : ℕ) : regionStart k ≤ regionStart (k + 1) := regionStart_mono (Nat.le_succ k)

theorem regionStart_length : regionStart 20 = otpRegionEndAddr := by decide

/-- The permission region is `[0x1A0030, 0x1A0040)`. -/
theorem regionStart_perm : regionStart 2 = 0x1A0030 ∧ regionStart 3 = 0x1A0040 := by decide

theorem lockNum_lt {region : ℕ} (h : region < gOtpRegionLockMap.length) : lockNum region < maxRegion := by
  have hall : ∀ r < 20, lockNum r < maxRegion := by decide
  exact hall region h

theorem regionLoop_eq (address : ℕ) : ∀ (rs : List OtpRegionLockMap) (start count : ℕ), start ≤ address →
    regionLoop address rs start count = count + Slots.find (rs.map (·.regionSize)) (address - start)
  | [], start, count, _ => rfl
  | r :: rs, start, count, h => by
    rw [regionLoop, List.map_cons, Slots.find]
    by_cases hr : address < start + r.regionSize
    · rw [if_pos ⟨h, hr⟩, if_pos (by omega), Nat.add_zero]
    · rw [if_neg fun hc => hr hc.2, if_neg (by omega), regionLoop_eq address rs _ _ (by omega), Nat.sub_add_eq]
      omega

/-- The region number of an address of the OTP area or after it. -/
theorem addressToRegionNumMap_eq {a : ℕ} (h : otpRegionStAddr ≤ a) :
    addressToRegionNumMap a = Slots.find (gOtpRegionLockMap.map (·.regionSize)) (a - otpRegionStAddr) := by
  rw [addressToRegionNumMap, regionLoop_eq _ _ _ _ h, Nat.zero_add]

theorem le_region_iff {a k : ℕ} (h : otpRegionStAddr ≤ a) (hk : k ≤ 20) :
    k ≤ addressToRegionNumMap a ↔ regionStart k ≤ a := by
  have hslots : k ≤ (gOtpRegionLockMap.map (·.regionSize)).length := hk
  rw [addressToRegionNumMap_eq h, Slots.le_find_iff hslots, regionStart]
  omega

theorem region_le_iff {a k : ℕ} (h : otpRegionStAddr ≤ a) (hk : k < 20) :
    addressToRegionNumMap a ≤ k ↔ a < regionStart (k + 1) := by
  have := le_region_iff h (show k + 1 ≤ 20 from hk)
  omega

theorem region_lt_iff {a : ℕ} (h : otpRegionStAddr ≤ a) : addressToRegionNumMap a < 20 ↔ a < otpRegionEndAddr := by
  have := le_region_iff h (le_refl 20)
  rw [regionStart_length] at this
  omega

/-! ### The check -/

/-- The lock bytes are in the permission region, so the check lets them be read without looking at a lock. -/
theorem rangeCheck_perm (m : Memory) (n : ℕ) {a : ℕ} (h₁ : 0x1A0030 ≤ a) (h₂ : a + 1 < 0x1A0040) :
    rangeCheck m (n + 1) a 1 .readLocked = true := by
  have hend : u32 (a + 1) = a + 1 := u32_of_lt (by omega)
  have hreg : ∀ x, 0x1A0030 ≤ x → x < 0x1A0040 → addressToRegionNumMap x = 2 := by
    intro x hx hx'
    have hst : otpRegionStAddr ≤ x := le_trans (by decide) hx
    have hge := (le_region_iff hst (show 2 ≤ 20 by decide)).mpr (by rw [regionStart_perm.1]; exact hx)
    have hle := (region_le_iff hst (show 2 < 20 by decide)).mpr (by rw [regionStart_perm.2]; exact hx')
    exact le_antisymm hle hge
  have hotp : MemRramOtpAddrChk a ∧ MemRramOtpAddrChk (a + 1) := by
    rw [otpChk_iff, otpChk_iff]
    omega
  rw [rangeCheck]
  simp only [hend]
  rw [if_pos hotp, checkOtpRegionRwPermission]
  simp only [Nat.reduceMod, hend]
  rw [hreg a h₁ (by omega), hreg (a + 1) (by omega) h₂]
  rfl

theorem locked_eq (m : Memory) (n : ℕ) (access : PerStatus) {k : ℕ} (hk : k < maxRegion) :
    ntOtpRegionLocked
      (fun address => if rangeCheck m (n + 1) address 1 .readLocked then .ok (m address) else .error .einval) k access =
      .ok (lockBit m access k) := by
  have hbyte : k / 8 ≤ 2 := by
    have : k < 21 := hk
    omega
  have hperm : 0x1A0030 ≤ permAddr access ∧ permAddr access ≤ 0x1A0033 := by cases access <;> decide
  have hpass := rangeCheck_perm m n (show 0x1A0030 ≤ permAddr access + k / 8 by omega) (by omega)
  rw [ntOtpRegionLocked, if_neg (not_le.mpr hk)]
  simp only [hpass, if_true, lockBit]

/-- The recursion stops at depth 2: more depth makes no difference. -/
theorem rangeCheck_depth (m : Memory) (n a l : ℕ) (access : PerStatus) :
    rangeCheck m (n + 2) a l access = rramAddressRangeCheck m a l access := by
  have hall : ∀ d, (fun region => isUnlocked (ntOtpRegionLocked (fun address =>
      if rangeCheck m (d + 1) address 1 .readLocked then .ok (m address) else .error .einval) (lockNum region) access)) =
      fun region => isUnlocked (.ok (lockBit m access (lockNum region))) := by
    intro d
    funext region
    rw [locked_eq]
    by_cases hr : region < gOtpRegionLockMap.length
    · exact lockNum_lt hr
    · rw [lockNum, List.getD_eq_getElem?_getD, List.getElem?_eq_none (not_lt.mp hr)]
      decide
  rw [rramAddressRangeCheck, rangeCheck, rangeCheck]
  simp only [checkOtpRegionRwPermission, hall]

/-- The lock test over the OTP area, on the lock bits themselves. -/
theorem rramAddressRangeCheck_eq (m : Memory) (a l : ℕ) (access : PerStatus) :
    rramAddressRangeCheck m a l access =
      if MemRramOtpAddrChk a ∧ MemRramOtpAddrChk (u32 (a + l)) then
        checkOtpRegionRwPermission (fun k => ntOtpRegionLocked
          (fun address => if rangeCheck m 1 address 1 .readLocked then .ok (m address) else .error .einval) k access)
          a (l % 65536) access
      else decide (MemRramMainAddrChk a ∧ MemRramMainAddrChk (u32 (a + l))) := by
  rw [rramAddressRangeCheck, rangeCheck]
  by_cases hb : MemRramOtpAddrChk a ∧ MemRramOtpAddrChk (u32 (a + l))
  · rw [if_pos hb, if_pos hb]
  · rw [if_neg hb, if_neg hb]
    simp only [otpChk_iff, mainChk_iff] at hb ⊢
    split
    · exact (decide_eq_false (by omega)).symm
    · split
      · exact (decide_eq_false (by omega)).symm
      · exact (decide_eq_true (by omega)).symm

theorem permInside_iff {a l : ℕ} {access : PerStatus} (hst : otpRegionStAddr ≤ a) :
    PermInside a l access ↔ addressToRegionNumMap a = addressToRegionNumMap (a + l) ∧
      addressToRegionNumMap a = rwPermissionRegion ∧ access = .readLocked := by
  have hst' : otpRegionStAddr ≤ a + l := le_trans hst (Nat.le_add_right _ _)
  have h₁ := le_region_iff hst (show 2 ≤ 20 by decide)
  have h₂ : addressToRegionNumMap a ≤ 2 ↔ a < regionStart 3 := region_le_iff hst (by decide)
  have h₃ := le_region_iff hst' (show 2 ≤ 20 by decide)
  have h₄ : addressToRegionNumMap (a + l) ≤ 2 ↔ a + l < regionStart 3 := region_le_iff hst' (by decide)
  rw [PermInside]
  constructor
  · rintro ⟨rfl, hlo, hhi⟩
    refine ⟨by omega, ?_, rfl⟩
    show addressToRegionNumMap a = 2
    omega
  · rintro ⟨heq, hreg, rfl⟩
    have hreg : addressToRegionNumMap a = 2 := hreg
    refine ⟨rfl, ?_, ?_⟩ <;> omega

/-- A range that ends before the OTP area does passes if it is a read inside the permission region, or if no
    region from its first address to the one after its last is locked. -/
theorem permission_iff (m : Memory) (access : PerStatus) {a l : ℕ} (hst : otpRegionStAddr ≤ a)
    (hend : a + l < otpRegionEndAddr) :
    rramAddressRangeCheck m a l access = true ↔
      PermInside a l access ∨ ∀ region < gOtpRegionLockMap.length, Touches a (l + 1) region → ¬Locked m access region := by
  have hst' : otpRegionStAddr ≤ a + l := le_trans hst (Nat.le_add_right _ _)
  have hlt : a + l < 0x1A1000 := hend
  have hu : u32 (a + l) = a + l := u32_of_lt (by omega)
  have ha : a < otpRegionEndAddr := lt_of_le_of_lt (Nat.le_add_right _ _) hend
  have hi := (region_lt_iff hst).mpr ha
  have hj := (region_lt_iff hst').mpr hend
  have hlow : 0x1A0000 ≤ a := hst
  have hl : l % 65536 = l := Nat.mod_eq_of_lt (by omega)
  rw [rramAddressRangeCheck_eq, hu, if_pos ⟨⟨hst, ha⟩, ⟨hst', hend⟩⟩, checkOtpRegionRwPermission, hl, hu,
    if_neg fun h => h.elim (not_le.mpr hi) (not_le.mpr hj)]
  by_cases hp : PermInside a l access
  · rw [if_pos ((permInside_iff hst).mp hp)]
    exact iff_of_true rfl (.inl hp)
  rw [if_neg fun h => hp ((permInside_iff hst).mpr h), or_iff_right hp, List.all_eq_true]
  -- the regions of the loop are the touched ones
  have hmem : ∀ r < 20, r ∈ List.range' (addressToRegionNumMap a)
      (addressToRegionNumMap (a + l) + 1 - addressToRegionNumMap a) ↔ Touches a (l + 1) r := by
    intro r hr
    have h₁ := region_le_iff hst hr
    have h₂ := le_region_iff hst' (le_of_lt hr)
    rw [List.mem_range'_1, Touches]
    omega
  have hunlock : ∀ r < 20, isUnlocked (ntOtpRegionLocked (fun address =>
      if rangeCheck m 1 address 1 .readLocked then .ok (m address) else .error .einval) (lockNum r) access) = true ↔
        ¬Locked m access r := by
    intro r hr
    rw [locked_eq m 0 access (lockNum_lt hr), Locked]
    cases lockBit m access (lockNum r) <;> decide
  constructor
  · intro hall r hr ht
    exact (hunlock r hr).mp (hall r ((hmem r hr).mpr ht))
  · intro hall r hr
    have hr20 : r < 20 := by
      rw [List.mem_range'_1] at hr
      omega
    exact (hunlock r hr20).mpr (hall r hr20 ((hmem r hr20).mp hr))

/-- A range that starts in the OTP area and does not end before it does is refused. -/
theorem otp_past_end (m : Memory) (access : PerStatus) {a l : ℕ} (hotp : MemRramOtpAddrChk a) (hl : l < 2 ^ 32)
    (hend : otpRegionEndAddr ≤ a + l) : rramAddressRangeCheck m a l access = false := by
  have ho := otpChk_iff.mp hotp
  have hend : 0x1A1000 ≤ a + l := hend
  rw [rramAddressRangeCheck_eq]
  by_cases hb : MemRramOtpAddrChk (u32 (a + l))
  · -- the end has wrapped around, and the length cut to 16 bits leads past the last region
    rw [if_pos ⟨hotp, hb⟩, checkOtpRegionRwPermission]
    have he := otpChk_iff.mp hb
    simp only [u32] at he
    have hpast : otpRegionEndAddr ≤ u32 (a + l % 65536) := by
      show 0x1A1000 ≤ u32 (a + l % 65536)
      simp only [u32]
      omega
    have hreg := (not_congr (region_lt_iff (le_trans (by decide) hpast))).mpr (not_lt.mpr hpast)
    rw [if_pos (.inr (not_lt.mp hreg))]
  · rw [if_neg fun h => hb h.2]
    exact decide_eq_false fun h => by
      have hm := mainChk_iff.mp h.1
      omega

/-! ### Exactness -/

theorem Touches.succ {a l r : ℕ} (h : Touches a l r) : Touches a (l + 1) r := by
  rw [Touches] at h ⊢
  omega

/-- A read inside the permission region touches no other. -/
theorem PermInside.only {a l r : ℕ} {access : PerStatus} (h : PermInside a l access) (ht : Touches a (l + 1) r) :
    r = rwPermissionRegion := by
  obtain ⟨-, hlo, hhi⟩ := h
  rw [Touches] at ht
  by_contra hne
  have hne : ¬r = 2 := hne
  rcases Nat.lt_or_ge r 2 with hr | hr
  · have := regionStart_mono (show r + 1 ≤ 2 from hr)
    omega
  · have := regionStart_mono (show 3 ≤ r by omega)
    omega

/-- Inside the OTP area the check refuses what is allowed exactly when a lock overrules. -/
theorem permission_exact (m : Memory) (access : PerStatus) {a l : ℕ} (hst : otpRegionStAddr ≤ a)
    (hend : a + l < otpRegionEndAddr) (h0 : 0 < l) :
    rramAddressRangeCheck m a l access = true ↔ AllPermitted m a l access ∧ ¬Overruled m a l access := by
  rw [permission_iff m access hst hend]
  constructor
  · rintro (hp | hfree)
    · refine ⟨fun r _ ht _ => ⟨hp.only ht.succ, hp.1⟩, ?_⟩
      rintro (⟨r, -, hr, -⟩ | ⟨-, -, -, hn⟩)
      · obtain rfl : r = 2 := hp.only ⟨by omega, by have := regionStart_le_next r; omega⟩
        have := hp.2.1
        omega
      · exact hn hp
    · refine ⟨fun r hr ht hl => absurd hl (hfree r hr ht.succ), ?_⟩
      rintro (⟨r, hr, hstart, hl⟩ | ⟨-, hl, ht, -⟩)
      · have := regionStart_le_next r
        exact hfree r hr ⟨by omega, by omega⟩ hl
      · exact hfree rwPermissionRegion (by decide) ht.succ hl
  · rintro ⟨hall, hno⟩
    by_cases hp : PermInside a l access
    · exact .inl hp
    · refine .inr fun r hr ht hl => hno ?_
      by_cases htl : Touches a l r
      · obtain ⟨rfl, hread⟩ := hall r hr htl hl
        exact .inr ⟨hread, hl, htl, hp⟩
      · refine .inl ⟨r, hr, ?_, hl⟩
        rw [Touches] at ht htl
        omega

/-- The check accepts a range exactly when it may be accessed, unless the range is one of those it misjudges. -/
theorem rram_range_check_exact_iff (m : Memory) (a l : ℕ) (access : PerStatus) (ha : a < 2 ^ 32)
    (hl : l < 2 ^ 32) (h0 : 0 < l) :
    (rramAddressRangeCheck m a l access = true ↔ Allowed m a l access) ↔ ¬Misjudged m a l access := by
  by_cases hotp : MemRramOtpAddrChk a
  · -- in the OTP area
    have ho := otpChk_iff.mp hotp
    have hallow : Allowed m a l access ↔ a + l ≤ otpRegionEndAddr ∧ AllPermitted m a l access := by
      rw [Allowed]
      exact ⟨fun h => h.elim (fun h => absurd h.1 (by show ¬0x200000 ≤ a; omega)) And.right, fun h => .inr ⟨hotp.1, h⟩⟩
    have hmis : Misjudged m a l access ↔ (a + l = otpRegionEndAddr ∧ AllPermitted m a l access) ∨
        (a + l < otpRegionEndAddr ∧ AllPermitted m a l access ∧ Overruled m a l access) := by
      rw [Misjudged, or_iff_right fun h => absurd h.1 (show ¬0x200000 ≤ a by omega),
        or_iff_right fun h => absurd h.1 (show ¬(0x200000 ≤ a ∧ a < 0x380000) by omega), and_iff_right hotp.1,
        and_iff_right hotp.1]
    rw [hallow, hmis]
    rcases Nat.lt_or_ge (a + l) otpRegionEndAddr with hend | hend
    · rw [permission_exact m access hotp.1 hend h0]
      have hne := ne_of_lt hend
      have hle := le_of_lt hend
      tauto
    · rw [otp_past_end m access hotp hl hend]
      have hlt := not_lt.mpr hend
      constructor
      · rintro hacc (⟨heq, hall⟩ | ⟨h, -⟩)
        · exact absurd (hacc.mpr ⟨le_of_eq heq, hall⟩) (by decide)
        · exact hlt h
      · intro hn
        refine iff_of_false (by decide) fun h => hn (.inl ⟨le_antisymm h.1 hend, h.2⟩)
  · -- outside it the lock bits play no part
    have hno : ¬(0x1A0000 ≤ a ∧ a < 0x1A1000) := hotp
    have hcheck : rramAddressRangeCheck m a l access = true ↔
        MemRramMainAddrChk a ∧ MemRramMainAddrChk (u32 (a + l)) := by
      rw [rramAddressRangeCheck_eq, if_neg fun h => hotp h.1, decide_eq_true_eq]
    have hallow : Allowed m a l access ↔ 0x200000 ≤ a ∧ a + l ≤ 0x380000 := by
      rw [Allowed, or_iff_left fun h => hno ⟨h.1, lt_of_lt_of_le (Nat.lt_add_of_pos_right h0) h.2.1⟩]
    have hmis : Misjudged m a l access ↔ (0x200000 ≤ a ∧ a + l = 0x380000) ∨
        ((0x200000 ≤ a ∧ a < 0x380000) ∧ 2 ^ 32 + 0x200000 ≤ a + l) := by
      rw [Misjudged, ← or_assoc, or_iff_left]
      · rfl
      · rintro (⟨h, heq, -⟩ | ⟨h, hlt, -⟩)
        · exact hno ⟨h, lt_of_lt_of_eq (Nat.lt_add_of_pos_right h0) heq⟩
        · exact hno ⟨h, lt_of_le_of_lt (Nat.le_add_right _ _) hlt⟩
    rw [hcheck, hallow, hmis, mainChk_iff, mainChk_iff]
    simp only [u32]
    omega

/-- No lock bit is set. -/
abbrev openRram : Memory := fun _ => 0

/-- The first row of main RRAM may be written, and the check says so. -/
theorem rram_range_check_exact_first :
    rramAddressRangeCheck openRram 0x200000 16 .writeLocked = true ↔ Allowed openRram 0x200000 16 .writeLocked := by
  refine (rram_range_check_exact_iff openRram 0x200000 16 .writeLocked (by decide) (by decide) (by decide)).mpr ?_
  rintro (⟨-, h⟩ | ⟨-, h⟩ | ⟨-, h, -⟩ | ⟨-, h, -⟩) <;> exact absurd h (by decide)

/-- The anti-rollback row is open and the calibration region after it is locked for writing. -/
def calibrationLocked : Memory := fun x => if x = 0x1A0034 then 4 else 0

/-- The last row of main RRAM is refused, and so is the anti-rollback row when the region after it is locked. -/
theorem rram_range_check_ends :
    ¬(rramAddressRangeCheck openRram 0x37FFF0 16 .writeLocked = true ↔ Allowed openRram 0x37FFF0 16 .writeLocked) ∧
    ¬(rramAddressRangeCheck calibrationLocked 0x1A00B0 16 .writeLocked = true ↔
      Allowed calibrationLocked 0x1A00B0 16 .writeLocked) := by
  constructor
  · intro h
    exact absurd (h.mpr (.inl ⟨by decide, by decide⟩)) (by decide)
  · intro h
    have hall : AllPermitted calibrationLocked 0x1A00B0 16 .writeLocked := by
      intro r hr ht
      have hopen : ∀ r < 20, r ≠ 10 → ¬Locked calibrationLocked .writeLocked r := by decide
      rcases eq_or_ne r 10 with rfl | hne
      · exact absurd ht.1 (by decide)
      · exact fun hl => absurd hl (hopen r hr hne)
    exact absurd (h.mpr (.inr ⟨by decide, by decide, hall⟩)) (by decide)

end Qcc730.Rram
