import Qcc730.Hosted.Loader

/-! What a download writes.

    The loader compares a confirm with its request and then goes on whatever the comparison gave; it tests
    where a chunk starts and not where it ends. Here is what follows: which messages make a download come out
    right, and which keep every write inside the two regions that downloads are for. -/

namespace Qcc730.Hosted
open Lib

namespace Loader

variable {bdfAddr : UInt32} {s : Loader}

/-! ### Fields that every pass keeps in bounds -/

/-- The chunk counter is a 16-bit field and offsets count from the start of the image. -/
structure Bounds (s : Loader) : Prop where
  start : s.cntxt.startOffset = 0
  count : s.cntxt.currPktCount < 2 ^ 16
  offset : s.cntxt.runningOffset < 2 ^ 26

theorem bounds_init (mem : ℕ → UInt8) : Bounds (init mem) := ⟨rfl, by norm_num [init], by norm_num [init]⟩

/-- A pass that neither begins an image nor asks for a chunk nor takes one. -/
structure Quiet (s s' : Loader) : Prop where
  writes : s'.writes = s.writes
  start : s'.cntxt.startOffset = s.cntxt.startOffset
  count : s'.cntxt.currPktCount = s.cntxt.currPktCount
  offset : s'.cntxt.runningOffset = s.cntxt.runningOffset
  idle : s' = s ∨ s'.state ≠ .requestProgram ∧ s'.state ≠ .waitForProgram ∧ s'.state ≠ .resourceTransferCompleted

theorem Quiet.refl (s : Loader) : Quiet s s := ⟨rfl, rfl, rfl, rfl, .inl rfl⟩

theorem waitForDfu_quiet (p : Poll) : Quiet s (s.waitForDfu p) := by
  rw [waitForDfu]
  split
  · exact .refl s
  · split
    · dsimp only
      split
      · exact ⟨rfl, rfl, rfl, rfl, .inr (by simp)⟩
      · split <;> exact ⟨rfl, rfl, rfl, rfl, .inr (by simp)⟩
    · exact .refl s

theorem resourceTransferConfirm_quiet (p : Poll) : Quiet s (s.resourceTransferConfirm p) := by
  rw [resourceTransferConfirm]
  split
  · exact .refl s
  · split
    · refine ⟨rfl, rfl, rfl, rfl, .inr ?_⟩
      dsimp only
      split
      · simp
      · split <;> simp
    · exact .refl s

/-- What a pass can do. -/
theorem step_cases (bdfAddr : UInt32) (s : Loader) (p : Poll) :
    Quiet s (s.step bdfAddr p) ∨ s.result = none ∧
      (s.state = .checkForDfuBitmap ∧ s.step bdfAddr p = s.checkForDfuBitmap p ∨
        s.state = .requestProgram ∧ s.step bdfAddr p = s.requestProgram p ∨
        s.state = .waitForProgram ∧ s.step bdfAddr p = s.waitForProgram bdfAddr p) := by
  rw [step]
  split
  · exact .inl (.refl s)
  rename_i hres
  have hres' : s.result = none := by simpa using hres
  cases hs : s.state with
  | waitForDfu => exact .inl (waitForDfu_quiet p)
  | checkForDfuBitmap => exact .inr ⟨hres', .inl ⟨rfl, rfl⟩⟩
  | requestProgram => exact .inr ⟨hres', .inr (.inl ⟨rfl, rfl⟩)⟩
  | waitForProgram => exact .inr ⟨hres', .inr (.inr ⟨rfl, rfl⟩)⟩
  | resourceTransferCompleted =>
    dsimp only
    split
    · exact .inl ⟨rfl, rfl, rfl, rfl, .inr (by simp)⟩
    · exact .inl (.refl s)
  | resourceTransferConfirm => exact .inl (resourceTransferConfirm_quiet p)
  | sendRebootCmd =>
    dsimp only
    split
    · exact .inl ⟨rfl, rfl, rfl, rfl, .inr (by simp)⟩
    · exact .inl (.refl s)
  | resourceWaitForReboot => exact .inl ⟨rfl, rfl, rfl, rfl, .inr (by simp)⟩

theorem checkForDfuBitmap_writes (p : Poll) : (s.checkForDfuBitmap p).writes = s.writes := by
  rw [checkForDfuBitmap]
  split
  · split <;> rfl
  · rfl

theorem requestProgram_writes (p : Poll) : (s.requestProgram p).writes = s.writes := by
  rw [requestProgram]
  split
  · dsimp only
    split <;> rfl
  · rfl

theorem requestProgram_count (p : Poll) : (s.requestProgram p).cntxt.currPktCount = s.cntxt.currPktCount := by
  rw [requestProgram]
  split
  · dsimp only
    split <;> rfl
  · rfl

theorem checkForDfuBitmap_count (p : Poll) :
    (s.checkForDfuBitmap p).cntxt.currPktCount ≤ s.cntxt.currPktCount := by
  rw [checkForDfuBitmap]
  split
  · split
    · exact le_rfl
    · exact Nat.zero_le _
  · exact le_rfl

/-- Only a pass that awaits a chunk writes or counts one. -/
theorem step_waits (bdfAddr : UInt32) (p : Poll) (h : ¬ (s.result = none ∧ s.state = .waitForProgram)) :
    (s.step bdfAddr p).writes = s.writes ∧ (s.step bdfAddr p).cntxt.currPktCount ≤ s.cntxt.currPktCount := by
  obtain hq | ⟨hres, ⟨-, he⟩ | ⟨-, he⟩ | ⟨hs, -⟩⟩ := step_cases bdfAddr s p
  · exact ⟨hq.writes, hq.count.le⟩
  · rw [he]
    exact ⟨checkForDfuBitmap_writes p, checkForDfuBitmap_count p⟩
  · rw [he]
    exact ⟨requestProgram_writes p, (requestProgram_count p).le⟩
  · exact absurd ⟨hres, hs⟩ h

/-- What a message does while a chunk is awaited: it is dropped if the chunk would start out of range; otherwise it
    counts as the chunk, whatever it is, and its data are written if the RRAM takes them. -/
theorem waitForProgram_cases (bdfAddr : UInt32) (s : Loader) (p : Poll) :
    (s.waitForProgram bdfAddr p = s ∧
      ∀ m, p.a2f = some m → inRange s.cntxt (destination bdfAddr s.cntxt) = false) ∨
    ∃ m, p.a2f = some m ∧ inRange s.cntxt (destination bdfAddr s.cntxt) = true ∧
      s.waitForProgram bdfAddr p =
        { s with
          state := if (s.cntxt.currPktCount + 1) % 2 ^ 16 < s.cntxt.totalPkts then .requestProgram
            else .resourceTransferCompleted
          cntxt := { s.cntxt with currPktCount := (s.cntxt.currPktCount + 1) % 2 ^ 16 }
          rram := if rramVerifyAddress (destination bdfAddr s.cntxt) (dataLen m) then
              rramBlocks s.rram (destination bdfAddr s.cntxt) m.data (dataLen m) else s.rram
          chunks := if rramVerifyAddress (destination bdfAddr s.cntxt) (dataLen m) then
              s.chunks ++ [⟨s.cntxt.runningOffset, (List.range (dataLen m)).map m.data⟩] else s.chunks
          writes := if rramVerifyAddress (destination bdfAddr s.cntxt) (dataLen m) then
              s.writes ++ [(destination bdfAddr s.cntxt, dataLen m)] else s.writes } := by
  generalize hd : destination bdfAddr s.cntxt = d
  unfold waitForProgram
  cases hm : p.a2f with
  | none => exact .inl ⟨rfl, by simp⟩
  | some m =>
    rw [hd]
    dsimp only
    by_cases hr : inRange s.cntxt d = true
    · refine .inr ⟨m, rfl, hr, ?_⟩
      rw [if_pos hr, rramWrite]
      by_cases hv : rramVerifyAddress d (dataLen m) = true
      · rw [if_pos hv, if_pos hv, if_pos hv, if_pos hv]
      · rw [if_neg hv, if_neg hv, if_neg hv, if_neg hv]
    · rw [if_neg hr]
      exact .inl ⟨rfl, fun _ _ => by simpa using hr⟩

theorem Bounds.requestProgram (h : Bounds s) (p : Poll) : Bounds (s.requestProgram p) := by
  have hoff : (s.cntxt.startOffset + s.cntxt.currPktCount * dfuBuffSize) % 2 ^ 32 < 2 ^ 26 := by
    have := h.count
    rw [h.start, dfuBuffSize, Nat.mod_eq_of_lt (by omega)]
    omega
  rw [Loader.requestProgram]
  split
  · dsimp only
    split <;> exact ⟨h.start, h.count, hoff⟩
  · exact ⟨h.start, h.count, h.offset⟩

theorem Bounds.waitForProgram (h : Bounds s) (bdfAddr : UInt32) (p : Poll) : Bounds (s.waitForProgram bdfAddr p) := by
  obtain ⟨he, -⟩ | ⟨m, -, -, he⟩ := waitForProgram_cases bdfAddr s p
  · rwa [he]
  · rw [he]
    exact ⟨h.start, Nat.mod_lt _ (Nat.two_pow_pos 16), h.offset⟩

theorem Bounds.step (h : Bounds s) (p : Poll) : Bounds (s.step bdfAddr p) := by
  obtain hq | ⟨-, ⟨-, he⟩ | ⟨-, he⟩ | ⟨-, he⟩⟩ := step_cases bdfAddr s p
  · exact ⟨hq.start.trans h.start, hq.count ▸ h.count, hq.offset ▸ h.offset⟩
  · rw [he, Loader.checkForDfuBitmap]
    split
    · split
      · exact ⟨h.start, h.count, h.offset⟩
      · exact ⟨rfl, by norm_num, h.offset⟩
    · exact h
  · rw [he]
    exact h.requestProgram p
  · rw [he]
    exact h.waitForProgram bdfAddr p

/-! ### Where the writes go -/

/-- The two regions that downloads are for. -/
def InRegion (a : ℕ) : Prop := (appImageStart ≤ a ∧ a < rawFileStart) ∨ (bdfStart ≤ a ∧ a < rramEnd)

/-- Every byte written lies in one of the regions. -/
def WritesInRegion (s : Loader) : Prop := ∀ w ∈ s.writes, ∀ a, w.1 ≤ a → a < w.1 + w.2 → InRegion a

/-- A chunk of `len` bytes that the loader would write stays inside: of the application image it ends before the
    raw files; of an image that is neither the application nor the BDF, which goes to the address that is its
    offset, it happens to meet a region. -/
def Fits (bdfAddr : UInt32) (c : LoaderCntxt) (len : ℕ) : Prop :=
  inRange c (destination bdfAddr c) = true → rramVerifyAddress (destination bdfAddr c) len = true → len = 0 ∨
    if c.softidInProgress = wlanImgId then c.runningOffset + len ≤ rawFileStart - appImageStart
    else if c.softidInProgress = bdfId then True
    else (appImageStart ≤ c.runningOffset ∧ c.runningOffset + len ≤ rawFileStart) ∨ bdfStart ≤ c.runningOffset

/-- A message that arrives while a chunk is awaited fits. -/
def PollFits (bdfAddr : UInt32) (s : Loader) (p : Poll) : Prop :=
  s.result = none → s.state = .waitForProgram → ∀ m, p.a2f = some m → Fits bdfAddr s.cntxt (dataLen m)

def AllFit (bdfAddr : UInt32) : Loader → List Poll → Prop
  | _, [] => True
  | s, p :: ps => PollFits bdfAddr s p ∧ AllFit bdfAddr (s.step bdfAddr p) ps

/-- A stretch of RRAM inside one of the regions, which do not touch. -/
theorem stretch_in_region {d l : ℕ} (hl : 0 < l) (hend : d + l ≤ rramEnd) :
    (∀ a, d ≤ a → a < d + l → InRegion a) ↔ (appImageStart ≤ d ∧ d + l ≤ rawFileStart) ∨ bdfStart ≤ d := by
  simp only [InRegion, appImageStart, rawFileStart, bdfStart, rramEnd] at hend ⊢
  constructor
  · intro h
    have hfirst := h d le_rfl (by omega)
    by_contra hc
    have hgap := h 0x36A000 (by omega) (by omega)
    omega
  · intro h a ha hlt
    omega

theorem destination_eq (bdfAddr : UInt32) (hb : Bounds s) :
    destination bdfAddr s.cntxt = (fileStart bdfAddr s.cntxt + s.cntxt.runningOffset) % 2 ^ 32 := by
  rw [destination, hb.start, Nat.sub_zero, ← Nat.add_assoc, Nat.add_mod_right]

/-- The test of where a chunk starts and the end of the RRAM leave the application image to be bounded, and
    everything that is neither image. -/
theorem stretch_fits (hb : Bounds s) {len : ℕ} (hr : inRange s.cntxt (destination bdfAddr s.cntxt) = true)
    (hv : rramVerifyAddress (destination bdfAddr s.cntxt) len = true) :
    (∀ a, destination bdfAddr s.cntxt ≤ a → a < destination bdfAddr s.cntxt + len → InRegion a) ↔
      Fits bdfAddr s.cntxt len := by
  have hoff := hb.offset
  have hdst := destination_eq bdfAddr hb
  simp only [Fits, hr, hv, true_implies]
  generalize destination bdfAddr s.cntxt = d at hr hv hdst
  simp only [rramVerifyAddress, decide_eq_true_eq] at hv
  rcases Nat.eq_zero_or_pos len with h0 | hpos
  · simp only [h0, true_or, iff_true]
    intro a ha hlt
    omega
  have hend : d + len ≤ rramEnd := by omega
  have hne : ¬ len = 0 := by omega
  rw [stretch_in_region hpos hend]
  simp only [hne, false_or]
  simp only [inRange, decide_eq_true_eq, not_or, not_and] at hr
  simp only [fileStart] at hdst
  split
  · rename_i hw
    have hlow := hr.1 hw
    rw [if_pos hw] at hdst
    simp only [appImageStart, rawFileStart, bdfStart, rramEnd] at *
    omega
  · rename_i hw
    rw [if_neg hw] at hdst
    split
    · rename_i hbdf
      have hlow := hr.2 hbdf
      simp only [iff_true]
      omega
    · rename_i hbdf
      rw [if_neg hbdf] at hdst
      have : d = s.cntxt.runningOffset := by
        rw [hdst, Nat.zero_add]
        exact Nat.mod_eq_of_lt (by omega)
      rw [this]

/-- A pass keeps the writes inside exactly when what it writes fits. -/
theorem step_inRegion_iff (hb : Bounds s) (p : Poll) :
    (s.step bdfAddr p).WritesInRegion ↔ s.WritesInRegion ∧ PollFits bdfAddr s p := by
  by_cases hw : s.result = none ∧ s.state = .waitForProgram
  · have hstep : s.step bdfAddr p = s.waitForProgram bdfAddr p := by simp [step, hw.1, hw.2]
    simp only [PollFits, hw.1, hw.2, true_implies]
    rw [hstep]
    obtain ⟨he, hdrop⟩ | ⟨m, hm, hr, he⟩ := waitForProgram_cases bdfAddr s p
    · rw [he]
      refine ⟨fun h => ⟨h, fun m hm hr => ?_⟩, And.left⟩
      rw [hdrop m hm] at hr
      exact absurd hr (by simp)
    · have hone : (∀ m', p.a2f = some m' → Fits bdfAddr s.cntxt (dataLen m')) ↔
          Fits bdfAddr s.cntxt (dataLen m) := by simp [hm]
      rw [hone, he]
      by_cases hv : rramVerifyAddress (destination bdfAddr s.cntxt) (dataLen m) = true
      · rw [← stretch_fits hb hr hv]
        simp only [WritesInRegion, hv, if_true, List.mem_append, List.mem_singleton, or_imp, forall_and, forall_eq]
      · have hfits : Fits bdfAddr s.cntxt (dataLen m) := fun _ hv' => absurd hv' hv
        simp only [WritesInRegion, hv, if_false, hfits, and_true, Bool.false_eq_true]
  · have hfits : PollFits bdfAddr s p := fun hres hs => absurd ⟨hres, hs⟩ hw
    simp only [WritesInRegion, (step_waits bdfAddr p hw).1, hfits, and_true]

theorem run_inRegion_iff (ps : List Poll) : ∀ {s : Loader}, Bounds s →
    ((ps.foldl (step bdfAddr) s).WritesInRegion ↔ s.WritesInRegion ∧ AllFit bdfAddr s ps) := by
  induction ps with
  | nil => simp [AllFit]
  | cons p ps ih =>
    intro s hb
    rw [List.foldl_cons, ih (hb.step p), step_inRegion_iff hb, AllFit, and_assoc]

/-- Whatever the host sends, every byte written lies in the application region or in the BDF region if and only if
    every chunk that the loader writes fits. -/
theorem writes_in_region_iff (bdfAddr : UInt32) (mem : ℕ → UInt8) (ps : List Poll) :
    (ps.foldl (step bdfAddr) (init mem)).WritesInRegion ↔ AllFit bdfAddr (init mem) ps := by
  rw [run_inRegion_iff ps (bounds_init mem)]
  simp [WritesInRegion, init]

/-- The application image, confirmed with more bytes than the region holds. -/
theorem writes_out_of_region : ¬ ∀ ps : List Poll, (ps.foldl (step 0x37A000) (init fun _ => 0)).WritesInRegion := by
  intro h
  have hrun := h [⟨some ⟨1, 0x400, 2, 0, fun _ => 0⟩, true⟩, ⟨none, true⟩, ⟨none, true⟩,
    ⟨some ⟨2, 0, 0x150000, 2, fun _ => 0⟩, true⟩]
  have hw : (0x21A400, 0x150000) ∈ (List.foldl (step 0x37A000) (init fun _ => 0) [⟨some ⟨1, 0x400, 2, 0, fun _ => 0⟩, true⟩, ⟨none, true⟩, ⟨none, true⟩,
      ⟨some ⟨2, 0, 0x150000, 2, fun _ => 0⟩, true⟩]).writes := by
    decide +kernel
  have hgap := hrun _ hw 0x36A000 (by norm_num) (by norm_num)
  simp only [InRegion, appImageStart, rawFileStart, bdfStart, rramEnd] at hgap
  omega

/-! ### A download that comes out right -/

/-- The chunks cover the image from `a` to `b`, each byte once and in order. -/
def Tiles : ℕ → List Chunk → ℕ → Prop
  | a, [], b => a = b
  | a, c :: cs, b => c.offset = a ∧ Tiles (a + c.payload.length) cs b

theorem Tiles.snoc {c : Chunk} : ∀ {cs : List Chunk} {a b : ℕ}, Tiles a cs b → c.offset = b →
    Tiles a (cs ++ [c]) (b + c.payload.length)
  | [], _, _, h, hc => ⟨hc.trans h.symm, by rw [show _ = _ from h]; rfl⟩
  | _ :: _, _, _, h, hc => ⟨h.1, h.2.snoc hc⟩

theorem Tiles.length : ∀ {cs : List Chunk} {a b : ℕ}, Tiles a cs b →
    a + (cs.flatMap Chunk.payload).length = b
  | [], _, _, h => h
  | c :: cs, a, b, h => by
    have := h.2.length
    rw [List.flatMap_cons, List.length_append]
    omega

/-- The confirm is the one asked for. -/
def Answers (m : Msg) (r : TransferReq) : Prop :=
  m.msgId = a2fDfuDataTransferCfm ∧ m.elfOffset = r.elfOffset ∧ m.programLen = r.programLen ∧ m.softId = r.softId

/-- A pass that goes right: an image that is begun is not empty and its chunks can be counted in 16 bits; and a
    message that arrives while a chunk is awaited, if it is not dropped, answers the request and the RRAM
    takes its data. -/
def Calm (bdfAddr : UInt32) (s : Loader) (p : Poll) : Prop :=
  (s.state = .checkForDfuBitmap → s.cntxt.softidDfuBitmap ≠ 0 →
    0 < s.cntxt.fileSize ∧ s.cntxt.fileSize ≤ (2 ^ 16 - 1) * dfuBuffSize) ∧
  (s.state = .waitForProgram → ∀ m, p.a2f = some m → inRange s.cntxt (destination bdfAddr s.cntxt) = true →
    Answers m ⟨s.cntxt.runningOffset, s.cntxt.progLen, s.cntxt.softidInProgress⟩ ∧
      rramVerifyAddress (destination bdfAddr s.cntxt) s.cntxt.progLen = true)

def CalmStep (bdfAddr : UInt32) (s s' : Loader) : Prop := ∃ p, s.Calm bdfAddr p ∧ s' = s.step bdfAddr p

/-- The chunks tile the image up to `b`, and the RRAM holds their bytes. -/
structure Loaded (bdfAddr : UInt32) (b : ℕ) (s : Loader) : Prop where
  tiles : Tiles 0 s.chunks b
  fits : 0 < b → fileStart bdfAddr s.cntxt + b ≤ rramEnd
  bytes : ∀ i < b, (s.chunks.flatMap Chunk.payload)[i]? = some (s.rram (fileStart bdfAddr s.cntxt + i))

/-- How far a download is, by state. -/
structure Inv (bdfAddr : UInt32) (s : Loader) : Prop extends Bounds s where
  counting : s.state = .requestProgram ∨ s.state = .waitForProgram →
    s.cntxt.currPktCount < s.cntxt.totalPkts ∧ s.cntxt.totalPkts < 2 ^ 16 ∧
    s.cntxt.totalPkts = (s.cntxt.fileSize + dfuBuffSize - 1) / dfuBuffSize ∧
    Loaded bdfAddr (s.cntxt.currPktCount * dfuBuffSize) s
  asked : s.state = .waitForProgram →
    s.request = some ⟨s.cntxt.runningOffset, s.cntxt.progLen, s.cntxt.softidInProgress⟩ ∧
    s.cntxt.runningOffset = s.cntxt.currPktCount * dfuBuffSize ∧
    s.cntxt.progLen = min dfuBuffSize (s.cntxt.fileSize - s.cntxt.currPktCount * dfuBuffSize)
  complete : s.state = .resourceTransferCompleted → Loaded bdfAddr s.cntxt.fileSize s

theorem inv_init (mem : ℕ → UInt8) : Inv bdfAddr (init mem) :=
  ⟨bounds_init mem, by simp [init], by simp [init], by simp [init]⟩

theorem totalPktsOf_eq {n : ℕ} (h0 : 0 < n) (hn : n ≤ (2 ^ 16 - 1) * dfuBuffSize) :
    totalPktsOf n = (n + dfuBuffSize - 1) / dfuBuffSize ∧ totalPktsOf n < 2 ^ 16 ∧ 0 < totalPktsOf n := by
  have hsize : dfuBuffSize = 1024 := rfl
  have hdiv : n / dfuBuffSize % 2 ^ 16 = n / dfuBuffSize := by
    rw [hsize] at hn ⊢
    exact Nat.mod_eq_of_lt (by omega)
  by_cases hmod : n % dfuBuffSize = 0
  · have hval : totalPktsOf n = n / dfuBuffSize := by
      simp only [totalPktsOf, hmod, hdiv, ne_eq, not_true, if_false]
      refine if_neg ?_
      rw [hsize] at hmod ⊢
      omega
    rw [hval]
    rw [hsize] at hn hmod ⊢
    omega
  · have hsucc : (n / dfuBuffSize + 1) % 2 ^ 16 = n / dfuBuffSize + 1 := by
      rw [hsize] at hn hmod ⊢
      exact Nat.mod_eq_of_lt (by omega)
    have hval : totalPktsOf n = n / dfuBuffSize + 1 := by
      simp only [totalPktsOf, hmod, hdiv, hsucc, ne_eq, not_false_eq_true, if_true]
      exact if_neg (by omega)
    rw [hval]
    rw [hsize] at hn hmod ⊢
    omega

/-- The length that is asked for: a whole buffer, or what is left of the image. -/
theorem request_len {n k t : ℕ} (hk : k < t) (ht : t = (n + dfuBuffSize - 1) / dfuBuffSize) :
    (if k + 1 = t then if n % dfuBuffSize = 0 then dfuBuffSize else n % dfuBuffSize else dfuBuffSize) =
      min dfuBuffSize (n - k * dfuBuffSize) := by
  by_cases hlast : k + 1 = t
  · rw [if_pos hlast]
    by_cases hmod : n % dfuBuffSize = 0
    · rw [if_pos hmod]
      simp only [dfuBuffSize] at *
      omega
    · rw [if_neg hmod]
      simp only [dfuBuffSize] at *
      omega
  · rw [if_neg hlast]
    simp only [dfuBuffSize] at *
    omega

/-- What is loaded after it. -/
theorem loaded_after {n k t : ℕ} (hk : k < t) (ht : t = (n + dfuBuffSize - 1) / dfuBuffSize) :
    (k + 1 < t → k * dfuBuffSize + min dfuBuffSize (n - k * dfuBuffSize) = (k + 1) * dfuBuffSize) ∧
      (¬ k + 1 < t → k * dfuBuffSize + min dfuBuffSize (n - k * dfuBuffSize) = n) := by
  simp only [dfuBuffSize] at *
  omega

theorem fileStart_lt (bdfAddr : UInt32) (c : LoaderCntxt) : fileStart bdfAddr c < 2 ^ 32 := by
  rw [fileStart]
  split
  · norm_num [appImageStart]
  · split
    · exact bdfAddr.toNat_lt
    · norm_num

/-- Where the next chunk goes: right behind the ones before it. -/
theorem Loaded.destination {b : ℕ} (h : Loaded bdfAddr b s) (hb : Bounds s) (hoff : s.cntxt.runningOffset = b) :
    destination bdfAddr s.cntxt = fileStart bdfAddr s.cntxt + b := by
  have hlt := fileStart_lt bdfAddr s.cntxt
  rw [destination_eq bdfAddr hb, hoff]
  apply Nat.mod_eq_of_lt
  rcases Nat.eq_zero_or_pos b with h0 | hpos
  · omega
  · have := h.fits hpos
    simp only [rramEnd] at this
    omega

/-- A chunk is written behind the others. -/
theorem Loaded.write {b len : ℕ} {m : Msg} (h : Loaded bdfAddr b s) {s' : Loader}
    (hv : rramVerifyAddress (fileStart bdfAddr s.cntxt + b) len = true)
    (hid : s'.cntxt.softidInProgress = s.cntxt.softidInProgress)
    (hc : s'.chunks = s.chunks ++ [⟨b, (List.range len).map m.data⟩])
    (hm : s'.rram = rramBlocks s.rram (fileStart bdfAddr s.cntxt + b) m.data len) :
    Loaded bdfAddr (b + len) s' := by
  have hstart : fileStart bdfAddr s'.cntxt = fileStart bdfAddr s.cntxt := by simp only [fileStart, hid]
  have hlen := h.tiles.length
  simp only [rramVerifyAddress, decide_eq_true_eq] at hv
  refine ⟨?_, fun _ => ?_, fun i hi => ?_⟩
  · rw [hc]
    simpa using h.tiles.snoc (c := ⟨b, (List.range len).map m.data⟩) rfl
  · rw [hstart]
    omega
  · rw [hc, hm, hstart, List.flatMap_append, rramBlocks]
    by_cases hlt : i < b
    · rw [List.getElem?_append_left (by omega), h.bytes i hlt, if_neg (by omega)]
    · rw [List.getElem?_append_right (by omega), if_pos (by omega)]
      have hi' : i - (s.chunks.flatMap Chunk.payload).length = i - b := by omega
      have hdata : fileStart bdfAddr s.cntxt + i - (fileStart bdfAddr s.cntxt + b) = i - b := by omega
      rw [hi', hdata]
      simp [List.getElem?_range (show i - b < len by omega)]

theorem Inv.checkForDfuBitmap (h : Inv bdfAddr s) (hs : s.state = .checkForDfuBitmap) (p : Poll)
    (hcalm : s.Calm bdfAddr p) : Inv bdfAddr (s.checkForDfuBitmap p) := by
  rw [Loader.checkForDfuBitmap]
  split
  · split
    · exact ⟨⟨h.start, h.count, h.offset⟩, by simp [hs], by simp [hs], by simp [hs]⟩
    · rename_i hbit
      obtain ⟨h0, hn⟩ := hcalm.1 hs hbit
      obtain ⟨heq, hlt, hpos⟩ := totalPktsOf_eq h0 hn
      refine ⟨⟨rfl, by norm_num, h.offset⟩, fun _ => ⟨hpos, hlt, heq, ?_⟩, by simp, by simp⟩
      refine ⟨(Nat.zero_mul _).symm, fun hlt => ?_, fun i hi => ?_⟩
      · exact absurd hlt (by simp)
      · exact absurd hi (by simp)
  · exact h

theorem Inv.requestProgram (h : Inv bdfAddr s) (hs : s.state = .requestProgram) (p : Poll) :
    Inv bdfAddr (s.requestProgram p) := by
  obtain ⟨hlt, hmax, htot, hload⟩ := h.counting (.inl hs)
  have hoff : (s.cntxt.startOffset + s.cntxt.currPktCount * dfuBuffSize) % 2 ^ 32 =
      s.cntxt.currPktCount * dfuBuffSize := by
    rw [h.start, Nat.zero_add]
    apply Nat.mod_eq_of_lt
    rw [dfuBuffSize]
    omega
  have hlen := request_len hlt htot
  have hbounds := h.toBounds.requestProgram p
  rw [Loader.requestProgram, if_pos hlt.le] at hbounds ⊢
  rw [hlen, hoff] at hbounds ⊢
  dsimp only at hbounds ⊢
  split at hbounds <;> rename_i hroom
  · rw [if_pos hroom]
    exact ⟨hbounds, fun _ => ⟨hlt, hmax, htot, ⟨hload.tiles, hload.fits, hload.bytes⟩⟩, fun _ => ⟨rfl, rfl, rfl⟩,
      by simp⟩
  · rw [if_neg hroom]
    exact ⟨hbounds, fun _ => ⟨hlt, hmax, htot, ⟨hload.tiles, hload.fits, hload.bytes⟩⟩, by simp [hs], by simp [hs]⟩

theorem Inv.waitForProgram (h : Inv bdfAddr s) (hs : s.state = .waitForProgram) (p : Poll)
    (hcalm : s.Calm bdfAddr p) : Inv bdfAddr (s.waitForProgram bdfAddr p) := by
  have hbounds := h.toBounds.waitForProgram bdfAddr p
  obtain ⟨he, -⟩ | ⟨m, hm, hr, he⟩ := waitForProgram_cases bdfAddr s p
  · rwa [he]
  obtain ⟨hlt, hmax, htot, hload⟩ := h.counting (.inr hs)
  obtain ⟨-, hoff, hlen⟩ := h.asked hs
  obtain ⟨⟨hid, -, hprog, -⟩, hv⟩ := hcalm.2 hs m hm hr
  have hdata : dataLen m = s.cntxt.progLen := by rw [dataLen, if_pos hid]; exact hprog
  have hdst := hload.destination h.toBounds hoff
  rw [hdata, hdst] at he
  rw [hdst] at hv
  have hcount : (s.cntxt.currPktCount + 1) % 2 ^ 16 = s.cntxt.currPktCount + 1 := Nat.mod_eq_of_lt (by omega)
  simp only [hv, if_true, hcount, hoff] at he
  have hnew : Loaded bdfAddr (s.cntxt.currPktCount * dfuBuffSize + s.cntxt.progLen) (s.waitForProgram bdfAddr p) :=
    hload.write (m := m) hv (by rw [he]) (by rw [he]) (by rw [he])
  have hstate : (s.waitForProgram bdfAddr p).state =
      if s.cntxt.currPktCount + 1 < s.cntxt.totalPkts then .requestProgram else .resourceTransferCompleted := by
    rw [he]
  have hcntxt : (s.waitForProgram bdfAddr p).cntxt = { s.cntxt with currPktCount := s.cntxt.currPktCount + 1 } := by
    rw [he]
    simp only [hoff]
  by_cases hmore : s.cntxt.currPktCount + 1 < s.cntxt.totalPkts
  · rw [if_pos hmore] at hstate
    refine ⟨hbounds, fun _ => ?_, by simp [hstate], by simp [hstate]⟩
    rw [hcntxt]
    refine ⟨hmore, hmax, htot, ?_⟩
    rwa [hlen, (loaded_after hlt htot).1 hmore] at hnew
  · rw [if_neg hmore] at hstate
    refine ⟨hbounds, by simp [hstate], by simp [hstate], fun _ => ?_⟩
    rw [hcntxt]
    rwa [hlen, (loaded_after hlt htot).2 hmore] at hnew

theorem Inv.step (h : Inv bdfAddr s) {p : Poll} (hcalm : s.Calm bdfAddr p) : Inv bdfAddr (s.step bdfAddr p) := by
  obtain hq | ⟨-, ⟨hs, he⟩ | ⟨hs, he⟩ | ⟨hs, he⟩⟩ := step_cases bdfAddr s p
  · rcases hq.idle with he | ⟨hr, hw, hc⟩
    · rwa [he]
    · exact ⟨h.toBounds.step p, fun hs => absurd hs (not_or.mpr ⟨hr, hw⟩), fun hs => absurd hs hw,
        fun hs => absurd hs hc⟩
  · rw [he]
    exact h.checkForDfuBitmap hs p hcalm
  · rw [he]
    exact h.requestProgram hs p
  · rw [he]
    exact h.waitForProgram hs p hcalm

/-- A download goes by what was asked for as long as every pass is calm: a chunk is counted or written only for the
    confirm that answers the outstanding request, and when the transfer is reported as done the chunks tile
    the image and the RRAM holds their bytes. -/
theorem download_as_asked {mem : ℕ → UInt8} (h : Reach (CalmStep bdfAddr) (init mem) s) :
    (∀ p, s.Calm bdfAddr p →
      s.cntxt.currPktCount < (s.step bdfAddr p).cntxt.currPktCount ∨ (s.step bdfAddr p).writes ≠ s.writes →
      ∃ m r, p.a2f = some m ∧ s.request = some r ∧ Answers m r) ∧
    (s.state = .resourceTransferCompleted → Tiles 0 s.chunks s.cntxt.fileSize ∧
      ∀ i < s.cntxt.fileSize,
        (s.chunks.flatMap Chunk.payload)[i]? = some (s.rram (fileStart bdfAddr s.cntxt + i))) := by
  have hi : Inv bdfAddr s := h.inv (inv_init mem) (by rintro x _ ⟨p, hcalm, rfl⟩ hx; exact hx.step hcalm)
  refine ⟨fun p hcalm hadv => ?_, fun hs => ⟨(hi.complete hs).tiles, (hi.complete hs).bytes⟩⟩
  have hw : s.result = none ∧ s.state = .waitForProgram := by
    by_contra hw
    obtain ⟨hwrites, hcount⟩ := step_waits bdfAddr p hw
    rcases hadv with hlt | hne
    · omega
    · exact hne hwrites
  have hstep : s.step bdfAddr p = s.waitForProgram bdfAddr p := by simp [step, hw.1, hw.2]
  obtain ⟨he, -⟩ | ⟨m, hm, hr, -⟩ := waitForProgram_cases bdfAddr s p
  · rw [hstep, he] at hadv
    simp at hadv
  · exact ⟨m, _, hm, (hi.asked hw.2).1, (hcalm.2 hw.2 m hm hr).1⟩

/-- An application image of one byte. -/
theorem download_as_asked_of_one :
    let s := List.foldl (step 0x37A000) (init fun _ => 0) [⟨some ⟨1, 1, 2, 0, fun _ => 0⟩, true⟩, ⟨none, true⟩,
      ⟨none, true⟩, ⟨some ⟨2, 0, 1, 2, fun _ => 7⟩, true⟩]
    s.state = .resourceTransferCompleted ∧ s.rram 0x21A400 = 7 ∧ Tiles 0 s.chunks 1 := by
  intro s
  have hreach : Reach (CalmStep 0x37A000) (init fun _ => 0) s := by
    refine .tail (.tail (.tail (.tail .refl ⟨⟨some ⟨1, 1, 2, 0, fun _ => 0⟩, true⟩, ⟨?_, ?_⟩, rfl⟩)
      ⟨⟨none, true⟩, ⟨?_, ?_⟩, rfl⟩) ⟨⟨none, true⟩, ⟨?_, ?_⟩, rfl⟩)
      ⟨⟨some ⟨2, 0, 1, 2, fun _ => 7⟩, true⟩, ⟨?_, ?_⟩, rfl⟩
    · exact fun hs => absurd hs (by decide +kernel)
    · exact fun hs => absurd hs (by decide +kernel)
    · exact fun _ _ => by decide +kernel
    · exact fun hs => absurd hs (by decide +kernel)
    · exact fun hs => absurd hs (by decide +kernel)
    · exact fun hs => absurd hs (by decide +kernel)
    · exact fun hs => absurd hs (by decide +kernel)
    · intro _ m hm _
      obtain rfl := (Option.some.inj hm).symm
      exact ⟨by unfold Answers; decide +kernel, by decide +kernel⟩
  have hs : s.state = .resourceTransferCompleted ∧ s.cntxt.fileSize = 1 ∧ s.rram 0x21A400 = 7 := by
    decide +kernel
  have htiles := ((download_as_asked hreach).2 hs.1).1
  rw [hs.2.1] at htiles
  exact ⟨hs.1, hs.2.2, htiles⟩

/-- A confirm for another offset and another image is counted as the chunk. -/
theorem download_not_as_asked : ¬ ∀ s : Loader, Reach (Step 0x37A000) (init fun _ => 0) s → ∀ p,
    s.cntxt.currPktCount < (s.step 0x37A000 p).cntxt.currPktCount →
    ∃ m r, p.a2f = some m ∧ s.request = some r ∧ Answers m r := by
  intro h
  obtain ⟨m, r, hm, hr, ha⟩ := h _ (.foldl (step 0x37A000) _ [⟨some ⟨1, 0x400, 2, 0, fun _ => 0⟩, true⟩,
    ⟨none, true⟩, ⟨none, true⟩]) ⟨some ⟨2, 0x1000, 16, 4, fun _ => 0⟩, true⟩ (by decide +kernel)
  obtain rfl := (Option.some.inj hm).symm
  obtain rfl : (⟨0, 0x400, 2⟩ : TransferReq) = r := Option.some.inj (Eq.trans (by decide +kernel) hr)
  exact absurd ha.2.1 (by decide +kernel)

end Loader

end Qcc730.Hosted
