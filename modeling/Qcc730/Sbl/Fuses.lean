import Qcc730.Lib.Ones
import Qcc730.Sbl.Transfers

/-! The anti-rollback fuses (`boot_rollback_version.c`, `boot_rollback_version_impl.c`).

    The version of an image set is the number of fuses blown in its rows; `boot_rollback_update_fuse_version`
    blows as many as the version of a new image asks for. The set of an image is looked up in a table by a scan
    that never leaves the first set, and a version that does not fit the 64 fuses, or a save that fails, is
    passed over in silence. -/

namespace Qcc730.Sbl
open Lib Flash

/-- `bl_error_type`, the values of the rollback functions; `hang` is a loop that never ends. -/
inductive RollbackError where
  | nullPtr
  | imageSetNotFound
  | hang
  deriving DecidableEq, Repr

/-! ### Counting fuses -/

/-- The loop of `boot_rollback_count_bits_set`: a pass clears the lowest bit. The fuel bounds the passes. -/
def countLoop : ℕ → ℕ → ℕ
  | 0, _ => 0
  | n + 1, v => if v = 0 then 0 else countLoop n (v &&& (v - 1)) + 1

/-- `boot_rollback_count_bits_set`. -/
def bootRollbackCountBitsSet (inputVal : ℕ) : ℕ := countLoop 32 inputVal

theorem countLoop_eq {n v : ℕ} (h : ones v ≤ n) : countLoop n v = ones v := by
  induction n generalizing v with
  | zero => exact (Nat.le_zero.mp h).symm
  | succ n ih =>
    rw [countLoop]
    by_cases h0 : v = 0
    · rw [if_pos h0, h0, ones_zero]
    · have hclear := ones_clear_lowest h0
      rw [if_neg h0, ih (by omega), hclear]

/-- On 32-bit values the loop counts the ones. -/
theorem bootRollbackCountBitsSet_eq {v : ℕ} (h : v < 2 ^ 32) : bootRollbackCountBitsSet v = ones v :=
  countLoop_eq (ones_le h)

/-! ### The table -/

/-- `boot_version_rollback_img_set`; `none` is the address NULL. -/
structure BootVersionRollbackImgSet where
  secSwImgList : List ℕ
  featureEnableBaseAddress : Option ℕ
  featureEnableMask : ℕ
  versionLsbBaseAddress : Option ℕ
  versionLsbMask : ℕ
  versionMsbBaseAddress : Option ℕ
  versionMsbMask : ℕ
  deriving DecidableEq, Repr

abbrev secImgAuthSblImg : ℕ := 0
abbrev secImgAuthAppImg : ℕ := 1
abbrev secImgAuthNumSupportedImg : ℕ := 0x7FFFFFFF

/-- `ANTI_ROLLBACK_OTP_OFFSET`, where the fuses of the one set start. -/
abbrev antiRollbackOtpOffset : ℕ := 0x1A00B0

/-- `boot_rollback_version_img_set_table[0]`. -/
def qcomImages : BootVersionRollbackImgSet where
  secSwImgList := [secImgAuthSblImg, secImgAuthAppImg, secImgAuthNumSupportedImg]
  featureEnableBaseAddress := none
  featureEnableMask := 0
  versionLsbBaseAddress := some 0x1A00B0
  versionLsbMask := 0xFFFFFFFF
  versionMsbBaseAddress := some 0x1A00B4
  versionMsbMask := 0xFFFFFFFF

/-- `boot_rollback_version_img_set_table`. -/
def bootRollbackVersionImgSetTable : List BootVersionRollbackImgSet := [qcomImages]

/-- The outer loop of `boot_rollback_get_set_by_img_type`; `none` if the fuel is used up. `*image_set` points
    at the first set throughout. -/
def setsLoop (imageSetTable : List BootVersionRollbackImgSet) (imageSwType : ℕ) :
    ℕ → ℕ → Option (Except RollbackError BootVersionRollbackImgSet)
  | 0, _ => none
  | fuel + 1, imageSetCount =>
    if imageSetCount < imageSetTable.length then
      match imageSetTable.head? with
      | none => none
      | some imageSet =>
        if imageSwType ∈ imageSet.secSwImgList then some (.ok imageSet)
        -- neither the count nor the pointer has changed
        else setsLoop imageSetTable imageSwType fuel imageSetCount
    else some (.error .imageSetNotFound)

/-- `boot_rollback_get_set_by_img_type`. -/
def bootRollbackGetSetByImgType (fuel : ℕ) (imageSetTable : Option (List BootVersionRollbackImgSet))
    (imageSwType : ℕ) : Option (Except RollbackError BootVersionRollbackImgSet) :=
  match imageSetTable with
  | none => some (.error .nullPtr)
  | some sets => setsLoop sets imageSwType fuel 0

/-- What a lookup is to return: a set with the type, or not-found if there is none. -/
def FindsSet (sets : List BootVersionRollbackImgSet) (imageSwType : ℕ) :
    Except RollbackError BootVersionRollbackImgSet → Prop
  | .ok s => s ∈ sets ∧ imageSwType ∈ s.secSwImgList
  | .error e => e = .imageSetNotFound ∧ ∀ s ∈ sets, imageSwType ∉ s.secSwImgList

theorem setsLoop_nil (t fuel : ℕ) : setsLoop [] t (fuel + 1) 0 = some (.error .imageSetNotFound) := rfl

theorem setsLoop_found {s : BootVersionRollbackImgSet} {ss : List BootVersionRollbackImgSet} {t : ℕ}
    (h : t ∈ s.secSwImgList) (fuel : ℕ) : setsLoop (s :: ss) t (fuel + 1) 0 = some (.ok s) := by
  have hpos : 0 < (s :: ss).length := Nat.zero_lt_succ _
  rw [setsLoop, if_pos hpos, List.head?_cons]
  exact if_pos h

/-- A type that is not in the first set is looked for in the first set for ever. -/
theorem setsLoop_stuck {s : BootVersionRollbackImgSet} {ss : List BootVersionRollbackImgSet} {t : ℕ}
    (h : t ∉ s.secSwImgList) (fuel : ℕ) : setsLoop (s :: ss) t fuel 0 = none := by
  have hpos : 0 < (s :: ss).length := Nat.zero_lt_succ _
  induction fuel with
  | zero => rfl
  | succ fuel ih =>
    rw [setsLoop, if_pos hpos, List.head?_cons]
    exact (if_neg h).trans ih

/-- The lookup ends with the right answer exactly when the table is empty or its first set has the type. -/
theorem getSetByImgType_finds_iff (sets : List BootVersionRollbackImgSet) (t : ℕ) :
    (∃ fuel r, bootRollbackGetSetByImgType fuel (some sets) t = some r ∧ FindsSet sets t r) ↔
      sets = [] ∨ ∃ s, sets.head? = some s ∧ t ∈ s.secSwImgList := by
  rcases sets with _ | ⟨s, ss⟩
  · refine ⟨fun _ => .inl rfl, fun _ => ⟨1, _, setsLoop_nil t 0, rfl, ?_⟩⟩
    exact fun s hs => absurd hs List.not_mem_nil
  · by_cases ht : t ∈ s.secSwImgList
    · refine ⟨fun _ => .inr ⟨s, rfl, ht⟩, fun _ => ⟨1, _, setsLoop_found ht 0, ?_, ht⟩⟩
      exact List.mem_cons_self
    · constructor
      · rintro ⟨fuel, r, hr, -⟩
        rw [bootRollbackGetSetByImgType, setsLoop_stuck ht] at hr
        exact absurd hr (by simp)
      · rintro (h | ⟨s', hs', ht'⟩)
        · exact absurd h (List.cons_ne_nil _ _)
        · rw [List.head?_cons, Option.some.injEq] at hs'
          exact absurd (hs' ▸ ht') ht

/-- A set with other fuses, for the golden images. -/
def goldenImages : BootVersionRollbackImgSet :=
  { qcomImages with
    secSwImgList := [2, 3, secImgAuthNumSupportedImg]
    versionLsbBaseAddress := some 0x1A00C0
    versionMsbBaseAddress := some 0x1A00C4 }

/-- The second set of a table is never reached. -/
theorem second_set_not_found :
    ¬∃ fuel r, bootRollbackGetSetByImgType fuel (some [qcomImages, goldenImages]) 3 = some r ∧
      FindsSet [qcomImages, goldenImages] 3 r := by
  rintro ⟨fuel, r, hr, -⟩
  rw [bootRollbackGetSetByImgType, setsLoop_stuck (by decide)] at hr
  exact absurd hr (by simp)

/-! ### The fuse version -/

/-- `boot_rollback_is_feature_enabled_on_set`. -/
def bootRollbackIsFeatureEnabledOnSet (m : Memory) (imageSet : BootVersionRollbackImgSet) : Bool :=
  match imageSet.featureEnableBaseAddress with
  | none => false
  | some a => m.word a &&& imageSet.featureEnableMask ≠ 0

/-- The rows strictly between the two addresses, looked at if they are more than four words apart. -/
def middleRows (lsb msb : ℕ) : List ℕ :=
  if 4 < (msb - lsb) / 4 then (List.range ((msb - lsb) / 4 - 1)).map fun i => lsb + 4 * (i + 1) else []

/-- `boot_rollback_calculate_fuse_version`. -/
def bootRollbackCalculateFuseVersion (m : Memory) (imageSet : BootVersionRollbackImgSet) :
    Except RollbackError ℕ :=
  match imageSet.versionLsbBaseAddress, imageSet.versionMsbBaseAddress with
  | some lsb, some msb =>
    .ok (u32 (bootRollbackCountBitsSet (m.word lsb &&& imageSet.versionLsbMask) +
      ((middleRows lsb msb).map fun a => bootRollbackCountBitsSet (m.word a &&& 0xFF)).sum +
      bootRollbackCountBitsSet (m.word msb &&& imageSet.versionMsbMask)))
  | _, _ => .error .nullPtr

/-- The version in the fuses of the one set. -/
def fuseVersion (m : Memory) : ℕ := ones (m.word 0x1A00B0) + ones (m.word 0x1A00B4)

theorem ones_le_32 {v : ℕ} (h : v < 2 ^ 32) : ones v ≤ 32 := ones_le h

theorem fuseVersion_le (m : Memory) : fuseVersion m ≤ 64 :=
  Nat.add_le_add (ones_le_32 (m.word_lt 0x1A00B0)) (ones_le_32 (m.word_lt 0x1A00B4))

theorem and_mask32 {v : ℕ} (h : v < 2 ^ 32) : v &&& 0xFFFFFFFF = v :=
  (Nat.and_two_pow_sub_one_eq_mod v 32).trans (Nat.mod_eq_of_lt h)

theorem calculateFuseVersion_qcom (m : Memory) :
    bootRollbackCalculateFuseVersion m qcomImages = .ok (fuseVersion m) := by
  have hmid : middleRows 0x1A00B0 0x1A00B4 = [] := rfl
  have hlsb := m.word_lt 0x1A00B0
  have hmsb := m.word_lt 0x1A00B4
  have hle := fuseVersion_le m
  have hsmall : fuseVersion m < 2 ^ 32 := by omega
  simp only [bootRollbackCalculateFuseVersion, qcomImages, hmid, List.map_nil, List.sum_nil, Nat.add_zero]
  rw [and_mask32 hlsb, and_mask32 hmsb, bootRollbackCountBitsSet_eq hlsb, bootRollbackCountBitsSet_eq hmsb]
  exact congrArg Except.ok (u32_of_lt hsmall)

/-! ### Blowing the fuses -/

/-- The fields of `pbl_auth_state_t` the rollback functions use. -/
structure PblAuthState where
  authEnabled : Bool
  swId : ℕ
  deriving DecidableEq, Repr

/-- The version of an image, the upper half of its `sw_id`. -/
def PblAuthState.swVersion (auth : PblAuthState) : ℕ := u32 (auth.swId >>> 32)

/-- `lsb_mask` and `msb_mask` after the passes for the bits below `n`. -/
def bitMasks : ℕ → ℕ × ℕ
  | 0 => (0, 0)
  | i + 1 =>
    if i < 32 then ((bitMasks i).1 ||| 1 <<< i, (bitMasks i).2)
    else ((bitMasks i).1, (bitMasks i).2 ||| 1 <<< (i - 32))

/-- `fuse_bit_mask` for a version. -/
def fuseBitMask (swVersion : ℕ) : ℕ := (bitMasks swVersion).2 <<< 32 ||| (bitMasks swVersion).1

/-- The row that `boot_rollback_fuse_version_save` writes. -/
def fuseRow (fuseValue : ℕ) : Bytes :=
  le32 (u32 fuseValue) ++ le32 (u32 (fuseValue >>> 32)) ++ List.replicate 8 0

/-- `boot_rollback_fuse_version_save`. -/
def bootRollbackFuseVersionSave (write : RramWrite) (fuseValue : ℕ) (m : Memory) :
    Except BlError Unit × Memory :=
  write antiRollbackOtpOffset (fuseRow fuseValue) m

/-- `boot_rollback_update_fuse_version`, with at most `fuel` rounds of the lookup. -/
def bootRollbackUpdateFuseVersion (write : RramWrite) (fuel imageId : ℕ) (authState : Option PblAuthState) :
    Cmd Memory RollbackError Unit := fun m =>
  match authState with
  | none => (.error .nullPtr, m)
  | some auth =>
    match bootRollbackGetSetByImgType fuel (some bootRollbackVersionImgSetTable) imageId with
    | none => (.error .hang, m)
    | some (.error e) => (.error e, m)
    | some (.ok imageSet) =>
      if bootRollbackIsFeatureEnabledOnSet m imageSet = false ∧ auth.authEnabled = false then (.ok (), m)
      else match bootRollbackCalculateFuseVersion m imageSet with
        | .error e => (.error e, m)
        | .ok fuseVersionValue =>
          if auth.swVersion ≤ fuseVersionValue then (.ok (), m)
          else if 64 < auth.swVersion then (.ok (), m)
          -- the status of the save is dropped
          else (.ok (), (bootRollbackFuseVersionSave write (fuseBitMask auth.swVersion) m).2)

/-- The check on an image: its version is higher or equal to the version blown in fuses. -/
def Accepted (fuses version : ℕ) : Prop := fuses ≤ version

/-- No set has a lower version than before; and after a success with secure boot on, the version of the image's
    set is at least that of the image, so that no smaller one is accepted. -/
def Protects (imageId : ℕ) (auth : PblAuthState) (m : Memory) (r : Except RollbackError Unit × Memory) : Prop :=
  (∀ s ∈ bootRollbackVersionImgSetTable, ∀ v v', bootRollbackCalculateFuseVersion m s = .ok v →
    bootRollbackCalculateFuseVersion r.2 s = .ok v' → v ≤ v') ∧
  (r.1 = .ok () → auth.authEnabled = true →
    ∀ s ∈ bootRollbackVersionImgSetTable, imageId ∈ s.secSwImgList →
      ∃ v', bootRollbackCalculateFuseVersion r.2 s = .ok v' ∧ auth.swVersion ≤ v' ∧
        ∀ version < auth.swVersion, ¬Accepted v' version)

theorem protects_iff (imageId : ℕ) (auth : PblAuthState) (m : Memory) (r : Except RollbackError Unit × Memory) :
    Protects imageId auth m r ↔ fuseVersion m ≤ fuseVersion r.2 ∧
      (r.1 = .ok () → auth.authEnabled = true → imageId ∈ qcomImages.secSwImgList →
        auth.swVersion ≤ fuseVersion r.2) := by
  constructor
  · rintro ⟨hmono, hreach⟩
    have hq : qcomImages ∈ bootRollbackVersionImgSetTable := List.mem_singleton.mpr rfl
    refine ⟨hmono _ hq _ _ (calculateFuseVersion_qcom m) (calculateFuseVersion_qcom r.2), fun hok ha hid => ?_⟩
    obtain ⟨v', hv', hle, -⟩ := hreach hok ha _ hq hid
    rw [calculateFuseVersion_qcom, Except.ok.injEq] at hv'
    rwa [hv']
  · rintro ⟨hmono, hreach⟩
    refine ⟨fun s hs v v' hv hv' => ?_, fun hok ha s hs hid => ?_⟩
    · obtain rfl := List.mem_singleton.mp hs
      rw [calculateFuseVersion_qcom, Except.ok.injEq] at hv hv'
      rwa [← hv, ← hv']
    · obtain rfl := List.mem_singleton.mp hs
      have hle := hreach hok ha hid
      exact ⟨_, calculateFuseVersion_qcom r.2, hle, fun version hlt hacc => absurd (hle.trans hacc) (by omega)⟩

/-! #### The update, by cases -/

theorem update_unknown {imageId : ℕ} (h : imageId ∉ qcomImages.secSwImgList) (write : RramWrite) (fuel : ℕ)
    (auth : PblAuthState) (m : Memory) :
    bootRollbackUpdateFuseVersion write fuel imageId (some auth) m = (.error .hang, m) := by
  have hstuck : bootRollbackGetSetByImgType fuel (some bootRollbackVersionImgSetTable) imageId = none :=
    setsLoop_stuck h fuel
  simp only [bootRollbackUpdateFuseVersion, hstuck]

/-- For an image of the set, what the rounds of the lookup leave to decide. -/
theorem update_known {imageId : ℕ} (h : imageId ∈ qcomImages.secSwImgList) (write : RramWrite) (fuel : ℕ)
    (auth : PblAuthState) (m : Memory) :
    bootRollbackUpdateFuseVersion write (fuel + 1) imageId (some auth) m =
      if auth.authEnabled = false ∨ auth.swVersion ≤ fuseVersion m ∨ 64 < auth.swVersion then (.ok (), m)
      else (.ok (), (write antiRollbackOtpOffset (fuseRow (fuseBitMask auth.swVersion)) m).2) := by
  have hfound : bootRollbackGetSetByImgType (fuel + 1) (some bootRollbackVersionImgSetTable) imageId =
      some (.ok qcomImages) := setsLoop_found h fuel
  have hfeature : bootRollbackIsFeatureEnabledOnSet m qcomImages = false := rfl
  simp only [bootRollbackUpdateFuseVersion, hfound, hfeature, true_and, calculateFuseVersion_qcom]
  by_cases ha : auth.authEnabled = false
  · rw [if_pos ha, if_pos (.inl ha)]
  by_cases hv : auth.swVersion ≤ fuseVersion m
  · rw [if_neg ha, if_pos hv, if_pos (.inr (.inl hv))]
  by_cases hl : 64 < auth.swVersion
  · rw [if_neg ha, if_neg hv, if_pos hl, if_pos (.inr (.inr hl))]
  · have hnone : ¬(auth.authEnabled = false ∨ auth.swVersion ≤ fuseVersion m ∨ 64 < auth.swVersion) := by
      rintro (h | h | h)
      exacts [ha h, hv h, hl h]
    rw [if_neg ha, if_neg hv, if_neg hl, if_neg hnone]
    rfl

/-! #### The save

    The mask of a version is a run of that many ones over two words; the engine stores it as it is. -/

theorem bitMasks_eq (n : ℕ) : bitMasks n = (2 ^ min n 32 - 1, 2 ^ (n - 32) - 1) := by
  have hnext : ∀ i, 2 ^ i - 1 ||| 1 <<< i = 2 ^ (i + 1) - 1 := fun i => by
    have hpos := Nat.two_pow_pos i
    have hor := Nat.two_pow_add_eq_or_of_lt (show 2 ^ i - 1 < 2 ^ i by omega) 1
    rw [Nat.mul_one] at hor
    rw [Nat.one_shiftLeft, Nat.lor_comm, ← hor, Nat.pow_succ]
    omega
  induction n with
  | zero => rfl
  | succ i ih =>
    rw [bitMasks, ih]
    by_cases h : i < 32
    · rw [if_pos h, min_eq_left h.le, min_eq_left (show i + 1 ≤ 32 from h), hnext,
        Nat.sub_eq_zero_of_le h.le, Nat.sub_eq_zero_of_le (show i + 1 ≤ 32 from h)]
    · rw [not_lt] at h
      rw [if_neg (not_lt.mpr h), min_eq_right h, min_eq_right (h.trans (Nat.le_succ i)), hnext,
        Nat.succ_sub h]

/-- The two words of the mask of a version that fits. -/
theorem fuseRow_mask {n : ℕ} (h : n ≤ 64) : fuseRow (fuseBitMask n) =
    le32 (2 ^ min n 32 - 1) ++ le32 (2 ^ (n - 32) - 1) ++ List.replicate 8 0 := by
  have hlow : 2 ^ min n 32 ≤ 2 ^ 32 := Nat.pow_le_pow_right (by decide) (min_le_right n 32)
  have hhigh : 2 ^ (n - 32) ≤ 2 ^ 32 := Nat.pow_le_pow_right (by decide) (by omega)
  have hlow0 := Nat.two_pow_pos (min n 32)
  have hhigh0 := Nat.two_pow_pos (n - 32)
  have hmask : fuseBitMask n = (2 ^ (n - 32) - 1) * 2 ^ 32 + (2 ^ min n 32 - 1) := by
    rw [fuseBitMask, bitMasks_eq, ← Nat.shiftLeft_add_eq_or_of_lt (by omega), Nat.shiftLeft_eq]
  have hl : u32 (fuseBitMask n) = 2 ^ min n 32 - 1 := by
    rw [hmask, u32]
    omega
  have hh : u32 (fuseBitMask n >>> 32) = 2 ^ (n - 32) - 1 := by
    rw [hmask, u32, Nat.shiftRight_eq_div_pow]
    omega
  rw [fuseRow, hl, hh]

/-- With the row of a version stored, that is the fuse version. -/
theorem fuseVersion_store {n : ℕ} (h : n ≤ 64) (m : Memory) :
    fuseVersion (m.store antiRollbackOtpOffset (fuseRow (fuseBitMask n))) = n := by
  have hlow : 2 ^ min n 32 ≤ 2 ^ 32 := Nat.pow_le_pow_right (by decide) (min_le_right n 32)
  have hhigh : 2 ^ (n - 32) ≤ 2 ^ 32 := Nat.pow_le_pow_right (by decide) (by omega)
  have hlow0 := Nat.two_pow_pos (min n 32)
  have hhigh0 := Nat.two_pow_pos (n - 32)
  have hw0 : (m.store antiRollbackOtpOffset (fuseRow (fuseBitMask n))).word 0x1A00B0 = 2 ^ min n 32 - 1 := by
    refine word_of_le32 (by omega) fun i hi => ?_
    rw [fuseRow_mask h, Memory.store_in (by simp; omega)]
    rw [List.append_assoc, List.getD_append _ _ _ _ hi]
  have hw1 : (m.store antiRollbackOtpOffset (fuseRow (fuseBitMask n))).word 0x1A00B4 = 2 ^ (n - 32) - 1 := by
    refine word_of_le32 (by omega) fun i hi => ?_
    have hat : 0x1A00B4 + i = antiRollbackOtpOffset + (4 + i) := Nat.add_assoc 0x1A00B0 4 i
    rw [fuseRow_mask h, hat, Memory.store_in (by simp; omega)]
    rw [List.append_assoc, List.getD_append_right _ _ _ _ (by simp), length_le32, Nat.add_sub_cancel_left,
      List.getD_append _ _ _ _ hi]
  rw [fuseVersion, hw0, hw1, ones_pow_sub_one, ones_pow_sub_one]
  omega

/-- A write of the RRAM: whatever it returns, the row of 16 bytes is stored as a whole or not at all. -/
def RramWrite.WholeRow (write : RramWrite) : Prop :=
  ∀ destination source m, source.length = 16 →
    (write destination source m).2 = m.store destination source ∨ (write destination source m).2 = m

/-- The write stores the row of fuses for a version. -/
def RramWrite.StoresRow (write : RramWrite) (swVersion : ℕ) (m : Memory) : Prop :=
  (write antiRollbackOtpOffset (fuseRow (fuseBitMask swVersion)) m).2 =
    m.store antiRollbackOtpOffset (fuseRow (fuseBitMask swVersion))

/-- Where the version fits, the row stored is what the fuses then count. -/
theorem RramWrite.StoresRow.version {write : RramWrite} {n : ℕ} {m : Memory} (h : write.StoresRow n m) (hn : n ≤ 64) :
    fuseVersion (write antiRollbackOtpOffset (fuseRow (fuseBitMask n)) m).2 = n := by
  rw [h]
  exact fuseVersion_store hn m

/-- For an image of the set and secure boot on, a version that fits is there already or is stored. -/
theorem update_protects {write : RramWrite} {imageId : ℕ} {auth : PblAuthState} {m : Memory}
    (h : imageId ∉ qcomImages.secSwImgList ∨ auth.authEnabled = false ∨ auth.swVersion ≤ fuseVersion m ∨
      auth.swVersion ≤ 64 ∧ write.StoresRow auth.swVersion m) (fuel : ℕ) :
    Protects imageId auth m (bootRollbackUpdateFuseVersion write fuel imageId (some auth) m) := by
  refine (protects_iff imageId auth m _).mpr ?_
  by_cases hid : imageId ∈ qcomImages.secSwImgList
  · cases fuel with
    | zero =>
      refine ⟨le_rfl, fun hok => ?_⟩
      cases hok
    | succ fuel =>
      rw [update_known hid]
      split_ifs with hskip
      · refine ⟨le_rfl, fun _ ha _ => ?_⟩
        rw [ha] at h hskip
        rcases h with h | h | h | ⟨hle, -⟩
        · exact absurd hid h
        · exact Bool.noConfusion h
        · exact h
        · rcases hskip with hs | hs | hs
          · exact Bool.noConfusion hs
          · exact hs
          · omega
      · push Not at hskip
        obtain ⟨ha, hlt, -⟩ := hskip
        rcases h with h | h | h | ⟨hle, hrow⟩
        · exact absurd hid h
        · exact absurd h ha
        · omega
        · have hversion := hrow.version hle
          exact ⟨by rw [hversion]; exact hlt.le, fun _ _ _ => hversion.ge⟩
  · rw [update_unknown hid]
    refine ⟨le_rfl, fun hok => ?_⟩
    cases hok

/-- An update protects exactly if the image is of no set, secure boot is off, the fuses are there already, or
    the version fits the fuses and the write stores its row. -/
theorem update_protects_iff {write : RramWrite} (hw : write.WholeRow) (imageId : ℕ) (auth : PblAuthState) (m : Memory) :
    (∀ fuel, Protects imageId auth m (bootRollbackUpdateFuseVersion write fuel imageId (some auth) m)) ↔
      imageId ∉ qcomImages.secSwImgList ∨ auth.authEnabled = false ∨ auth.swVersion ≤ fuseVersion m ∨
        auth.swVersion ≤ 64 ∧ write.StoresRow auth.swVersion m := by
  refine ⟨fun h => ?_, fun h fuel => update_protects h fuel⟩
  by_cases hid : imageId ∈ qcomImages.secSwImgList
  swap
  · exact .inl hid
  have hone := (protects_iff imageId auth m _).mp (h 1)
  rw [update_known hid] at hone
  by_cases hskip : auth.authEnabled = false ∨ auth.swVersion ≤ fuseVersion m ∨ 64 < auth.swVersion
  · rw [if_pos hskip] at hone
    rcases Bool.eq_false_or_eq_true auth.authEnabled with ha | ha
    · exact .inr (.inr (.inl (hone.2 rfl ha hid)))
    · exact .inr (.inl ha)
  · rw [if_neg hskip] at hone
    push Not at hskip
    obtain ⟨ha, -, hle⟩ := hskip
    have hreach := hone.2 rfl (Bool.eq_true_of_not_eq_false ha) hid
    rcases hw antiRollbackOtpOffset (fuseRow (fuseBitMask auth.swVersion)) m rfl with hrow | hsame
    · exact .inr (.inr (.inr ⟨hle, hrow⟩))
    · -- nothing was stored, so the fuses would be there already
      rw [hsame] at hreach
      exact .inr (.inr (.inl hreach))

/-- `rram_block_write_dxe` on an engine that completes every transfer. -/
def RramWrite.block : RramWrite := fun destination source m =>
  match Dxe.rramBlockWriteDxe m destination source with
  | .ok m => (.ok (), m)
  | .error e => (.error e, m)

theorem RramWrite.block_wholeRow : RramWrite.block.WholeRow := by
  intro destination source m _
  rw [RramWrite.block, Dxe.rramBlockWriteDxe]
  split_ifs
  · exact .inr rfl
  · exact .inr rfl
  · exact .inl rfl

theorem RramWrite.block_stores (n : ℕ) (m : Memory) : RramWrite.block.StoresRow n m := by
  have hlen : (fuseRow (fuseBitMask n)).length = 16 := rfl
  have hstore : Dxe.rramBlockWriteDxe m antiRollbackOtpOffset (fuseRow (fuseBitMask n)) =
      .ok (m.store antiRollbackOtpOffset (fuseRow (fuseBitMask n))) := by
    rw [Dxe.rramBlockWriteDxe, if_neg (by decide), if_neg (by rw [hlen]; decide)]
  rw [RramWrite.StoresRow, RramWrite.block, hstore]

/-- An update to version 5 over the engine. -/
theorem update_protects_five : Protects secImgAuthAppImg ⟨true, 5 <<< 32⟩ (fun _ => 0)
    (bootRollbackUpdateFuseVersion .block 1 secImgAuthAppImg (some ⟨true, 5 <<< 32⟩) fun _ => 0) :=
  (update_protects_iff RramWrite.block_wholeRow secImgAuthAppImg ⟨true, 5 <<< 32⟩ fun _ => 0).mpr
    (.inr (.inr (.inr ⟨by decide, RramWrite.block_stores _ _⟩))) 1

/-- The fuses after updates for APP images, one after the other. -/
def updates (images : List PblAuthState) (m : Memory) : Memory :=
  images.foldl (fun m auth => (bootRollbackUpdateFuseVersion .block 1 secImgAuthAppImg (some auth) m).2) m

theorem updates_mono (images : List PblAuthState) (m : Memory) : fuseVersion m ≤ fuseVersion (updates images m) := by
  induction images generalizing m with
  | nil => exact le_rfl
  | cons auth images ih =>
    have hstep : fuseVersion m ≤
        fuseVersion (bootRollbackUpdateFuseVersion .block 1 secImgAuthAppImg (some auth) m).2 := by
      rw [update_known (by decide)]
      split_ifs with hskip
      · exact le_rfl
      · push Not at hskip
        exact hskip.2.1.le.trans ((RramWrite.block_stores _ m).version hskip.2.2).ge
    exact hstep.trans (ih _)

/-- Whatever was booted with secure boot on stays covered by the fuses, if its version fits them. -/
theorem updates_cover {images : List PblAuthState} {auth : PblAuthState} (hmem : auth ∈ images)
    (ha : auth.authEnabled = true) (hfit : auth.swVersion ≤ 64) (m : Memory) :
    auth.swVersion ≤ fuseVersion (updates images m) := by
  induction images generalizing m with
  | nil => exact absurd hmem List.not_mem_nil
  | cons first images ih =>
    rcases List.mem_cons.mp hmem with rfl | hmem
    · have hprotects := (protects_iff secImgAuthAppImg auth m _).mp
        (update_protects (.inr (.inr (.inr ⟨hfit, RramWrite.block_stores _ m⟩))) 1)
      have hok : (bootRollbackUpdateFuseVersion .block 1 secImgAuthAppImg (some auth) m).1 = .ok () := by
        rw [update_known (by decide)]
        split_ifs <;> rfl
      exact (hprotects.2 hok ha (by decide)).trans (updates_mono images _)
    · exact ih hmem _

/-- Version 3 after version 5. -/
theorem updates_cover_two :
    PblAuthState.swVersion ⟨true, 5 <<< 32⟩ ≤ fuseVersion (updates [⟨true, 5 <<< 32⟩, ⟨true, 3 <<< 32⟩] fun _ => 0) :=
  updates_cover (List.mem_cons_self ..) rfl (by decide) _

/-- Version 65 is taken without an error, and not a fuse is blown. -/
theorem version_65_not_saved :
    ¬∀ fuel, Protects secImgAuthAppImg ⟨true, 65 <<< 32 + secImgAuthAppImg⟩ (fun _ => 0)
      (bootRollbackUpdateFuseVersion .block fuel secImgAuthAppImg
        (some ⟨true, 65 <<< 32 + secImgAuthAppImg⟩) fun _ => 0) := by
  intro h
  have hone := ((protects_iff _ _ _ _).mp (h 1)).2
  have hid : secImgAuthAppImg ∈ qcomImages.secSwImgList := by decide
  rw [update_known hid, if_pos (.inr (.inr (by decide)))] at hone
  have hle := hone rfl rfl hid
  have h65 : PblAuthState.swVersion ⟨true, 65 <<< 32 + secImgAuthAppImg⟩ = 65 := by decide
  exact absurd (h65.ge.trans (hle.trans (fuseVersion_le fun _ => 0))) (by decide)

end Qcc730.Sbl
