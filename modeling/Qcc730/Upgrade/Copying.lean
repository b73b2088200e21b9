import Qcc730.Upgrade.Completion
import Qcc730.Upgrade.Frame

/-! Copies of the images that did not change, when flash reads fail.

    `fw_upgrade_process_duplicate_images` does not look at what `fw_upgrade_read_partition` returns. A block that
    is not read is written with what the buffer holds: the block copied before it, or the memory that `malloc`
    gave. Here the flash reads of one call may fail in any pattern; `Delivered` says when the buffer holds the
    right bytes each time it is written. -/

namespace Qcc730.Upgrade
open Lib Flash Sbl

/-! ### The code -/

/-- Which flash reads of a call fail: those of the active and of the trial FWD for image `i`, and that of the
    block at `offset` of image `i`, with the bytes the broken transfer leaves in the buffer. -/
structure ReadFaults where
  find : ℕ → Bool
  create : ℕ → Bool
  block : ℕ → ℕ → Option (ℕ → UInt8)

def ReadFaults.never : ReadFaults := ⟨fun _ => false, fun _ => false, fun _ _ => none⟩

/-- The buffer after a transfer of `b`. -/
def transferred (fault : Option (ℕ → UInt8)) (b : Bytes) : Bytes :=
  match fault with
  | none => b
  | some left => (List.range 4096).map left

/-- The buffer after `fw_upgrade_read_partition`, which returns `r` when the transfer works: refused parameters
    leave it alone. -/
def readBuf (fault : Option (ℕ → UInt8)) (r : Except FuStatus Bytes) (buf : Bytes) : Bytes :=
  match r with
  | .error _ => buf
  | .ok b => transferred fault b

/-- `fw_upgrade_find_partition` and `fw_upgrade_create_partition` when the FWD cannot be read. -/
def unlessFault {α : Type} (fault : Bool) (c : Cmd Fu FuStatus α) : Cmd Fu FuStatus α := fun s =>
  if fault then (.error .error, s) else c s

theorem unlessFault_ok {α : Type} {fault : Bool} {c : Cmd Fu FuStatus α} {s s' : Fu} {a : α}
    (h : unlessFault fault c s = (.ok a, s')) : c s = (.ok a, s') := by
  rw [unlessFault] at h
  split at h
  · cases h
  · exact h

/-- The inner loop of `fw_upgrade_process_duplicate_images`. -/
def copyBlocksWith (fault : ℕ → Option (ℕ → UInt8)) (src dst : ℕ) :
    List ℕ → Bytes → Fu → (Option FuStatus × Bytes) × Fu
  | [], buf, s => ((none, buf), s)
  | offset :: rest, buf, s =>
    let buf := readBuf (fault offset) (fwUpgradeReadPartition src offset 4096 s).1 buf
    match fwUpgradeErasePartition dst offset 4096 s with
    | (.error _, s) => ((some .flashErasePartition, buf), s)
    | (.ok _, s) =>
      match fwUpgradeWritePartition dst offset buf s with
      | (.error _, s) => ((some .flashWritePartition, buf), s)
      | (.ok _, s) => copyBlocksWith fault src dst rest buf s

/-- An image that is copied: not downloaded, and not a file system or the SBL. -/
def Unchanged (flag : ℕ → Bool) (p : ℕ × ImageHdr) : Prop := flag p.1 = false ∧ p.2.Counted

instance (flag : ℕ → Bool) (p : ℕ × ImageHdr) : Decidable (Unchanged flag p) := inferInstanceAs (Decidable (_ ∧ _))

/-- The outer loop of `fw_upgrade_process_duplicate_images`. -/
def duplicateLoopWith (F : ReadFaults) :
    List (ℕ × ImageHdr) → Option FuStatus → Bytes → Session → Option FuStatus × Session
  | [], err, _, s => (err, s)
  | (i, h) :: rest, err, buf, s =>
    if Unchanged s.cxt.downloadFlag (i, h) then
      match unlessFault (F.find i) (fwUpgradeFindPartition s.activeFwd h.imageId) s.fu with
      | (.error _, fu) => (some .incorrectImageHdr, { s with fu })
      | (.ok src, fu) =>
        match unlessFault (F.create i) (fwUpgradeCreatePartition s.cxt.trialFwdIdx h.imageId h.version
          s.cxt.trialMemStart h.diskSize) fu with
        | (.error _, fu) => (some .flashCreatePartition, { s with fu := fu.freeHandle src })
        | (.ok dst, fu) =>
          let r := copyBlocksWith (F.block i) src dst (blockOffsets h.diskSize) buf fu
          let s := { s with fu := (r.2.freeHandle src).freeHandle dst }
          duplicateLoopWith F rest (r.1.1 <|> err) r.1.2
            (s.setCxt fun c => { c with trialMemStart := u32 (c.trialMemStart + h.diskSize) })
    else duplicateLoopWith F rest err buf s

/-- The images of the header, with their index. -/
def Cxt.images (c : Cxt) (env : Env) : List (ℕ × ImageHdr) := (List.range c.totalImages).map fun i => (i, c.hdrAt env i)

/-- `fw_upgrade_process_duplicate_images`: the error it returns, or none. -/
def fwUpgradeProcessDuplicateImages (F : ReadFaults) (env : Env) (s : Session) : Option FuStatus × Session :=
  duplicateLoopWith F (s.cxt.images env) none ((List.range 4096).map env.heap) s

/-! ### Without failing reads this is the step of the session -/

theorem readBuf_none (r : Except FuStatus Bytes) (buf : Bytes) : readBuf none r buf = r.toOption.getD buf := by
  rcases r with e | b <;> rfl

theorem copyBlocksWith_never (src dst : ℕ) : ∀ (l : List ℕ) (buf : Bytes) (s : Fu),
    copyBlocksWith (fun _ => none) src dst l buf s = copyBlocks src dst l buf s
  | [], _, _ => rfl
  | x :: l, buf, s => by
    have htail : copyBlocksWith (fun _ => none) src dst l = copyBlocks src dst l :=
      funext fun buf => funext fun s => copyBlocksWith_never src dst l buf s
    rw [copyBlocksWith, copyBlocks]
    simp only [readBuf_none]
    exact htail ▸ rfl

theorem unlessFault_find_never {α : Type} (c : Cmd Fu FuStatus α) (i : ℕ) :
    unlessFault (ReadFaults.never.find i) c = c := rfl

theorem unlessFault_create_never {α : Type} (c : Cmd Fu FuStatus α) (i : ℕ) :
    unlessFault (ReadFaults.never.create i) c = c := rfl

theorem duplicateLoopWith_never : ∀ (l : List (ℕ × ImageHdr)) (err : Option FuStatus) (buf : Bytes) (s : Session),
    duplicateLoopWith .never l err buf s = duplicateLoop l err buf s
  | [], _, _, _ => rfl
  | (i, h) :: rest, err, buf, s => by
    have hb : ReadFaults.never.block i = fun _ => none := rfl
    have htail : duplicateLoopWith .never rest = duplicateLoop rest :=
      funext fun err => funext fun buf => funext fun s => duplicateLoopWith_never rest err buf s
    rw [duplicateLoopWith, duplicateLoop]
    simp only [unlessFault_find_never, unlessFault_create_never, hb, copyBlocksWith_never, Unchanged]
    exact htail ▸ rfl

/-- The state `FW_UPGRADE_STATE_DUPLICATE_IMAGES_E` calls the function. -/
theorem duplicateImages_eq (env : Env) (s : Session) : duplicateImages env s =
    match fwUpgradeProcessDuplicateImages .never env s with
    | (some e, s') => (.error e, s')
    | (none, s') => (.ok (), s'.setState .duplicateFs) := by
  rw [fwUpgradeProcessDuplicateImages, duplicateLoopWith_never]
  rfl

/-! ### What the buffer holds -/

/-- What reading a block of the partition `q` puts in the buffer: nothing when the block is not in the partition or
    not in flash. -/
def blockGot (fault : Option (ℕ → UInt8)) (d : Dev) (q : Range) (x : ℕ) : Option Bytes :=
  if x + 4096 ≤ q.size ∧ d.InFlash (q.start + x) 4096 then
    some (transferred fault (d.mem.flash.read (q.start + x) 4096))
  else none

/-- The buffer at each write, when the reads put `gots` in it. -/
def buffers : Bytes → List (Option Bytes) → List Bytes
  | _, [] => []
  | buf, got :: gots => got.getD buf :: buffers (got.getD buf) gots

/-- Each block `want` of the source is what its read puts in the buffer or, where the read puts nothing, the same
    as the block before it. -/
def Delivered : Bytes → List (Option Bytes × Bytes) → Prop
  | _, [] => True
  | prev, (got, want) :: rest => got.getD prev = want ∧ Delivered want rest

instance Delivered.decidable : ∀ (prev : Bytes) (l : List (Option Bytes × Bytes)), Decidable (Delivered prev l)
  | _, [] => .isTrue trivial
  | _, (_, want) :: rest =>
    have := Delivered.decidable want rest
    inferInstanceAs (Decidable (_ ∧ _))

theorem transferred_length (fault : Option (ℕ → UInt8)) {b : Bytes} (h : b.length = 4096) :
    (transferred fault b).length = 4096 := by
  rcases fault with _ | left
  · exact h
  · exact (List.length_map _).trans List.length_range

theorem blockGot_length {fault : Option (ℕ → UInt8)} {d : Dev} {q : Range} {x : ℕ} {b : Bytes}
    (h : blockGot fault d q x = some b) : b.length = 4096 := by
  rw [blockGot] at h
  split at h
  · rw [← Option.some.inj h]
    exact transferred_length _ (Memory.length_read _ _ _)
  · cases h

theorem getD_length {got : Option Bytes} {buf : Bytes} (hg : ∀ b, got = some b → b.length = 4096)
    (hb : buf.length = 4096) : (got.getD buf).length = 4096 := by
  rcases got with _ | b
  · exact hb
  · exact hg b rfl

/-- The writes are right exactly when each block is delivered. -/
theorem buffers_eq_iff (g : ℕ → Option Bytes) (w : ℕ → Bytes) : ∀ (l : List ℕ) (buf : Bytes),
    buffers buf (l.map g) = l.map w ↔ Delivered buf (l.map fun x => (g x, w x))
  | [], _ => by simp [buffers, Delivered]
  | x :: l, buf => by
    rw [List.map_cons, List.map_cons, List.map_cons, buffers, Delivered, List.cons.injEq]
    refine and_congr_right fun h => ?_
    rw [h]
    exact buffers_eq_iff g w l (w x)

theorem delivered_append : ∀ (l l' : List (Option Bytes × Bytes)) (prev : Bytes),
    Delivered prev (l ++ l') ↔ Delivered prev l ∧ Delivered ((l.map Prod.snd).getLastD prev) l'
  | [], l', prev => by simp [Delivered]
  | (got, want) :: l, l', prev => by
    rw [List.cons_append, Delivered, Delivered, delivered_append l l' want, and_assoc, List.map_cons, List.getLastD_cons]

/-- The blocks of a range of memory. -/
theorem read_blocks (m : Memory) (a : ℕ) : ∀ (l : List ℕ) (o : ℕ), Consecutive o l →
    m.read (a + o) (4096 * l.length) = (l.map fun x => m.read (a + x) 4096).flatten
  | [], _, _ => rfl
  | x :: l, o, ⟨hx, hl⟩ => by
    subst hx
    rw [List.map_cons, List.flatten_cons, ← read_blocks m a l (x + 4096) hl, List.length_cons, Nat.mul_succ,
      Nat.add_comm (4096 * _), Memory.read_add, Nat.add_assoc]

theorem length_blockOffsets {n : ℕ} (h : n % 4096 = 0) : 4096 * (blockOffsets n).length = n := by
  rw [blockOffsets, List.length_map, List.length_range]
  omega

/-! ### One image -/

section

variable {A : Area} {src dst : ℕ} {d₀ : Dev} {q : Range}

/-- A handle on the partition `q` in flash. -/
structure Fu.Opens (fu : Fu) (h : ℕ) (q : Range) : Prop where
  live : fu.Live h
  start : (fu.handles h).imgStart = q.start
  size : (fu.handles h).imgSize = q.size
  flash : (fu.handles h).imgId ≠ sblImgId

/-- The source is as it was in `d₀`. -/
structure SameSource (d₀ : Dev) (q : Range) (fu : Fu) : Prop where
  density : fu.dev.densityInBlocks = d₀.densityInBlocks
  flash : ∀ y ∈ q, fu.dev.mem.flash y = d₀.mem.flash y

/-- Reading a block, in terms of the partition. -/
theorem readBuf_eq {fu : Fu} (hsrc : fu.Opens src q) (hsame : SameSource d₀ q fu) (hq : q.start + q.size < 2 ^ 31)
    {x : ℕ} (hx : x + 4096 < 2 ^ 31) (fault : Option (ℕ → UInt8)) (buf : Bytes) :
    readBuf fault (fwUpgradeReadPartition src x 4096 fu).1 buf = (blockGot fault d₀ q x).getD buf := by
  have hin : ∀ a n, fu.dev.InFlash a n ↔ d₀.InFlash a n := fun a n => by
    rw [Dev.InFlash, Dev.InFlash, hsame.density]
  have hadd : u32 (q.start + x) = q.start + x := u32_of_lt (by omega)
  have hok : fu.MemParametersOk src x 4096 ↔ x + 4096 ≤ q.size := by
    rw [Fu.MemParametersOk, hsrc.start, hsrc.size, hadd, u32_of_lt (show q.start + x + 4096 < _ by omega),
      u32_of_lt (show q.start + q.size < _ by omega)]
    constructor
    · rintro ⟨-, -, h⟩
      omega
    · intro h
      exact ⟨by decide, hsrc.live, by omega⟩
  rw [fwUpgradeReadPartition, hsrc.start, hadd, blockGot]
  simp only [if_neg hsrc.flash]
  by_cases hle : x + 4096 ≤ q.size
  swap
  · rw [if_pos (mt hok.mp hle), if_neg fun h => hle h.1]
    rfl
  rw [if_neg (not_not.mpr (hok.mpr hle)), drvFlashRead]
  by_cases hf : fu.dev.InFlash (q.start + x) 4096
  · rw [if_pos hf, if_pos ⟨hle, (hin _ _).mp hf⟩]
    have hread : fu.dev.mem.flash.read (q.start + x) 4096 = d₀.mem.flash.read (q.start + x) 4096 :=
      Memory.read_congr fun i hi => hsame.flash _ (Range.mem_def.mpr (by omega))
    rw [hread]
    rfl
  · rw [if_neg hf, if_neg fun h => hf ((hin _ _).mpr h.2)]
    rfl

/-- A block of a flash partition holds what was written to it, and nothing else changes. -/
theorem rewriteBlock_eq (hs : A.Sane) {fu fu₁ fu₂ : Fu} {x : ℕ} {d : Bytes} (hc : A.Holds (fu.handles dst))
    (hid : (fu.handles dst).imgId ≠ sblImgId) (hx : x ≤ (fu.handles dst).imgSize) (hd : d.length = 4096)
    (h₁ : fwUpgradeErasePartition dst x 4096 fu = (.ok (), fu₁))
    (h₂ : fwUpgradeWritePartition dst x d fu₁ = (.ok (), fu₂)) :
    fu₂.handles = fu.handles ∧ fu₂.dev.densityInBlocks = fu.dev.densityInBlocks ∧
      x + 4096 ≤ (fu.handles dst).imgSize ∧ fu₂.dev.mem = { fu.dev.mem with
        flash := (fu.dev.mem.flash.erase ((fu.handles dst).imgStart + x) 4096).program
          ((fu.handles dst).imgStart + x) d } := by
  obtain ⟨-, r, hr, hlo, hhi⟩ := hc.flash hid
  have hr' := hs.data_lt r hr
  obtain ⟨hh₁, hm₁, hle⟩ := fuErase_ok hs hc (fun _ => by omega) h₁
  rw [← hh₁] at hc hid hx
  obtain ⟨hh₂, hm₂, -⟩ := fuWrite_ok hs hc hx (Nat.le_of_eq hd) (fun h => absurd h hid) h₂
  obtain ⟨ws, hw⟩ := erasePartition_extends dst x 4096 fu
  obtain ⟨vs, hv⟩ := writePartition_extends dst x d fu₁
  rw [h₁] at hw
  rw [h₂] at hv
  rw [hh₁] at hid hm₂
  have hid' : (fu.handles dst).place.imgId ≠ sblImgId := hid
  refine ⟨hh₂.trans hh₁, ?_, hle hid, ?_⟩
  · rw [hv, hw]
    rfl
  · rw [hm₂, hm₁, writeIn, eraseIn, if_neg hid', if_neg hid']

/-- What the loop over the blocks leaves: the buffers it wrote, one after the other. -/
structure BlocksWritten (dst o : ℕ) (bs : List Bytes) (fu fu' : Fu) : Prop where
  handles : fu'.handles = fu.handles
  density : fu'.dev.densityInBlocks = fu.dev.densityInBlocks
  fdt : fu'.dev.mem.fdt = fu.dev.mem.fdt
  flash : ∀ y ∉ (⟨(fu.handles dst).imgStart + o, 4096 * bs.length⟩ : Range), fu'.dev.mem.flash y = fu.dev.mem.flash y
  written : fu'.dev.mem.flash.read ((fu.handles dst).imgStart + o) (4096 * bs.length) = bs.flatten

theorem not_mem_blocks {a x n y : ℕ} (h : y ∉ (⟨a + x, 4096 * (n + 1)⟩ : Range)) :
    y ∉ (⟨a + x, 4096⟩ : Range) ∧ y ∉ (⟨a + (x + 4096), 4096 * n⟩ : Range) := by
  simp only [Range.mem_mk] at h ⊢
  omega

theorem length_buffers : ∀ (gots : List (Option Bytes)) (buf : Bytes), (buffers buf gots).length = gots.length
  | [], _ => rfl
  | _ :: gots, _ => congrArg (· + 1) (length_buffers gots _)

theorem copyBlocksWith_ok (hs : A.Sane) (hq : q.start + q.size < 2 ^ 31) (fault : ℕ → Option (ℕ → UInt8)) :
    ∀ (l : List ℕ) (o : ℕ) (buf b : Bytes) (fu fu' : Fu), Consecutive o l → fu.Opens src q → SameSource d₀ q fu →
    A.Holds (fu.handles dst) → (fu.handles dst).imgId ≠ sblImgId →
    q.Disj ⟨(fu.handles dst).imgStart, (fu.handles dst).imgSize⟩ → o ≤ (fu.handles dst).imgSize → buf.length = 4096 →
    copyBlocksWith fault src dst l buf fu = ((none, b), fu') →
    BlocksWritten dst o (buffers buf (l.map fun x => blockGot (fault x) d₀ q x)) fu fu' ∧
      b = (buffers buf (l.map fun x => blockGot (fault x) d₀ q x)).getLastD buf ∧ b.length = 4096 ∧
      o + 4096 * l.length ≤ (fu.handles dst).imgSize
  | [], o, buf, b, fu, fu', _, _, _, _, _, _, ho, hb, heq => by
    cases heq
    exact ⟨⟨rfl, rfl, rfl, fun _ _ => rfl, rfl⟩, rfl, hb, ho⟩
  | x :: l, o, buf, b, fu, fu', ⟨hx, hl⟩, hsrc, hsame, hc, hid, hdis, ho, hb, heq => by
    subst hx
    obtain ⟨-, r, hr, hlo, hhi⟩ := hc.flash hid
    have hr' := hs.data_lt r hr
    rw [copyBlocksWith] at heq
    rcases h₁ : fwUpgradeErasePartition dst x 4096 fu with ⟨e | u, fu₁⟩ <;> simp only [h₁] at heq
    · cases heq
    obtain ⟨-, -, hle⟩ := fuErase_ok hs hc (fun _ => by omega) h₁
    have hle' := hle hid
    rw [readBuf_eq hsrc hsame hq (by omega)] at heq
    set d := (blockGot (fault x) d₀ q x).getD buf with hd
    have hdl : d.length = 4096 := getD_length (fun _ => blockGot_length) hb
    rcases h₂ : fwUpgradeWritePartition dst x d fu₁ with ⟨e | u, fu₂⟩ <;> simp only [h₂] at heq
    · cases heq
    obtain ⟨hh, hden, hnext, hmem⟩ := rewriteBlock_eq hs hc hid ho hdl h₁ h₂
    set a := (fu.handles dst).imgStart with ha
    have hout : ∀ y ∉ (⟨a + x, 4096⟩ : Range), fu₂.dev.mem.flash y = fu.dev.mem.flash y := by
      intro y hy
      rw [Range.mem_mk] at hy
      rw [hmem]
      exact (Memory.program_out (by omega)).trans (Memory.erase_out (by omega))
    have hin : fu₂.dev.mem.flash.read (a + x) 4096 = d := by
      rw [hmem]
      rw [← hdl]
      exact Memory.read_program fun i hi => Memory.erase_in (by omega) (by omega)
    have hsrc₂ : fu₂.Opens src q := by
      refine ⟨⟨hsrc.live.1, ?_⟩, ?_, ?_, ?_⟩ <;> rw [hh]
      · exact hsrc.live.2
      · exact hsrc.start
      · exact hsrc.size
      · exact hsrc.flash
    have hsame₂ : SameSource d₀ q fu₂ := by
      refine ⟨hden.trans hsame.density, fun y hy => (hout y fun hc' => hdis y hy ?_).trans (hsame.flash y hy)⟩
      rw [Range.mem_mk] at hc' ⊢
      omega
    obtain ⟨hw, hb', hbl, hend⟩ := copyBlocksWith_ok hs hq fault l (x + 4096) d b fu₂ fu' hl hsrc₂ hsame₂ (by rw [hh]; exact hc)
      (by rw [hh]; exact hid) (by rw [hh]; exact hdis) (by rw [hh]; exact hnext) hdl heq
    rw [List.map_cons, buffers, ← hd]
    refine ⟨⟨hw.handles.trans hh, hw.density.trans hden, ?_, ?_, ?_⟩, ?_, hbl, ?_⟩
    · rw [hw.fdt, hmem]
    · intro y hy
      rw [List.length_cons] at hy
      obtain ⟨hfst, hrest⟩ := not_mem_blocks hy
      exact (hw.flash y (by rw [hh]; exact hrest)).trans (hout y hfst)
    · have hrest := hw.written
      rw [hh, ← ha, ← Nat.add_assoc] at hrest
      have hfst : fu'.dev.mem.flash.read (a + x) 4096 = d := by
        refine (Memory.read_congr fun i hi => hw.flash _ ?_).trans hin
        rw [hh, Range.mem_mk]
        exact fun h => absurd h.1 (by omega)
      rw [List.length_cons, Nat.mul_succ, Nat.add_comm (4096 * _), Memory.read_add, hrest, List.flatten_cons, hfst]
    · rw [List.getLastD_cons]
      exact hb'
    · rw [hh] at hend
      rw [List.length_cons, Nat.mul_succ, Nat.add_comm (4096 * _), ← Nat.add_assoc]
      exact hend

end

theorem mem_buffers_length : ∀ (gots : List (Option Bytes)) (buf : Bytes), buf.length = 4096 →
    (∀ g ∈ gots, ∀ b, g = some b → b.length = 4096) → ∀ b ∈ buffers buf gots, b.length = 4096
  | [], _, _, _, _, hmem => absurd hmem List.not_mem_nil
  | g :: gots, buf, hb, hg, b, hmem => by
    have hl : (g.getD buf).length = 4096 := getD_length (hg g List.mem_cons_self) hb
    rcases List.mem_cons.mp hmem with rfl | hmem
    · exact hl
    · exact mem_buffers_length gots _ hl (fun g' hg' => hg g' (List.mem_cons_of_mem _ hg')) b hmem

theorem read_take (m : Memory) {a n k : ℕ} (h : n ≤ k) : (m.read a k).take n = m.read a n := by
  obtain ⟨j, rfl⟩ := Nat.exists_eq_add_of_le h
  rw [Memory.read_add, List.take_left' (Memory.length_read _ _ _)]

theorem map_length_eq {L : List Bytes} {k : ℕ} (h : ∀ b ∈ L, b.length = k) : L.map List.length = List.replicate L.length k :=
  List.eq_replicate_iff.mpr ⟨List.length_map _, fun _ hn => by
    obtain ⟨b, hb, rfl⟩ := List.mem_map.mp hn
    exact h b hb⟩

/-- The blocks written for an image are the start of its source exactly when the source is long enough and each
    block is delivered. -/
theorem image_matches_iff (fault : ℕ → Option (ℕ → UInt8)) (d : Dev) (q : Range) {n : ℕ} (hn : n % 4096 = 0) {buf : Bytes}
    (hb : buf.length = 4096) :
    (buffers buf ((blockOffsets n).map fun x => blockGot (fault x) d q x)).flatten = (d.mem.flash.read q.start q.size).take n ↔
      n ≤ q.size ∧ Delivered buf ((blockOffsets n).map fun x =>
        (blockGot (fault x) d q x, d.mem.flash.read (q.start + x) 4096)) := by
  have hlen := length_blockOffsets hn
  have hfl := mem_buffers_length ((blockOffsets n).map fun x => blockGot (fault x) d q x) buf hb fun g hg b hgb => by
    obtain ⟨x, -, rfl⟩ := List.mem_map.mp hg
    exact blockGot_length hgb
  have hmap := map_length_eq hfl
  rw [length_buffers, List.length_map] at hmap
  by_cases hle : n ≤ q.size
  · have hblocks := read_blocks d.mem.flash q.start _ 0 (consecutive_blockOffsets n)
    rw [Nat.add_zero, hlen] at hblocks
    rw [read_take _ hle, hblocks, ← buffers_eq_iff]
    have hwant : ((blockOffsets n).map fun x => d.mem.flash.read (q.start + x) 4096).map List.length =
        List.replicate (blockOffsets n).length 4096 := by
      have := map_length_eq (L := (blockOffsets n).map fun x => d.mem.flash.read (q.start + x) 4096) (k := 4096)
        fun b hb' => by
          obtain ⟨x, -, rfl⟩ := List.mem_map.mp hb'
          exact Memory.length_read _ _ _
      rwa [List.length_map] at this
    constructor
    · intro h
      exact ⟨hle, List.eq_iff_flatten_eq.mpr ⟨h, hmap.trans hwant.symm⟩⟩
    · rintro ⟨-, h⟩
      rw [h]
  · refine iff_of_false (fun h => ?_) fun h => hle h.1
    have hl := congrArg List.length h
    rw [List.length_flatten, hmap, List.sum_replicate, smul_eq_mul, Nat.mul_comm, hlen, List.length_take,
      Memory.length_read] at hl
    omega

/-! ### All images -/

/-- The images that are copied. -/
def copies (flag : ℕ → Bool) (l : List (ℕ × ImageHdr)) : List (ℕ × ImageHdr) := l.filter fun p => Unchanged flag p

/-- The partition of the active FWD that an image is copied from. -/
def sourceOf (d : Dev) (active : ℕ) (h : ImageHdr) : Range := partitionRange (d.mem.fwd active) h.imageId

/-- What the reads of an image put in the buffer, and what they should. -/
def imageReads (F : ReadFaults) (d : Dev) (active : ℕ) (p : ℕ × ImageHdr) : List (Option Bytes × Bytes) :=
  (blockOffsets p.2.diskSize).map fun x =>
    (blockGot (F.block p.1 x) d (sourceOf d active p.2) x, d.mem.flash.read ((sourceOf d active p.2).start + x) 4096)

/-- The source of a copy is apart from the places that the copies are written to. -/
structure SourceApart (A : Area) (d : Dev) (active : ℕ) (h : ImageHdr) : Prop where
  used : h.imageId ≠ fwdImageUnused
  lt : (sourceOf d active h).start + (sourceOf d active h).size < 2 ^ 31
  mem : (sourceOf d active h).Disj A.mem
  trial : (sourceOf d active h).Disj A.trialBlock

/-- The entries that the copies get, from the address `start` on. -/
def copyEntries : ℕ → List (ℕ × ImageHdr) → List ImageEntry
  | _, [] => []
  | start, p :: ps =>
    truncEntry (newEntry p.2.imageId p.2.version start p.2.diskSize) :: copyEntries (start + p.2.diskSize) ps

/-- The copies, from the address `start` on, are the starts of their sources in `d`. -/
def CopiesMatch (after : Memory) (d : Dev) (active : ℕ) : ℕ → List (ℕ × ImageHdr) → Prop
  | _, [] => True
  | start, p :: ps =>
    after.read start p.2.diskSize =
      (d.mem.flash.read (sourceOf d active p.2).start (sourceOf d active p.2).size).take p.2.diskSize ∧
    CopiesMatch after d active (start + p.2.diskSize) ps

/-- Every block of every copy is delivered, and no copy is longer than its source. -/
structure AllDelivered (F : ReadFaults) (d : Dev) (active : ℕ) (buf : Bytes) (l : List (ℕ × ImageHdr)) : Prop where
  size : ∀ p ∈ l, p.2.diskSize ≤ (sourceOf d active p.2).size
  blocks : Delivered buf (l.flatMap (imageReads F d active))

theorem allDelivered_cons {F : ReadFaults} {d : Dev} {active : ℕ} {buf : Bytes} {p : ℕ × ImageHdr} {l : List (ℕ × ImageHdr)} :
    AllDelivered F d active buf (p :: l) ↔ (p.2.diskSize ≤ (sourceOf d active p.2).size ∧
      Delivered buf (imageReads F d active p)) ∧
      AllDelivered F d active (((imageReads F d active p).map Prod.snd).getLastD buf) l := by
  constructor
  · rintro ⟨h₁, h₂⟩
    rw [List.flatMap_cons, delivered_append] at h₂
    exact ⟨⟨h₁ p List.mem_cons_self, h₂.1⟩, fun p' hp => h₁ p' (List.mem_cons_of_mem _ hp), h₂.2⟩
  · rintro ⟨⟨h₁, h₂⟩, h₃, h₄⟩
    refine ⟨fun p' hp => ?_, ?_⟩
    · rcases List.mem_cons.mp hp with rfl | hp
      · exact h₁
      · exact h₃ p' hp
    · rw [List.flatMap_cons, delivered_append]
      exact ⟨h₂, h₄⟩

section

variable {A : Area} {F : ReadFaults} {d₀ : Dev} {active : ℕ} {sig : Front} {s s' : Session} {es : List ImageEntry}

/-- A session that copies the images of `l`: the sources are as they were in `d₀`. -/
structure Copying (A : Area) (d₀ : Dev) (active : ℕ) (l : List (ℕ × ImageHdr)) (s : Session) : Prop where
  trial : s.cxt.trialFwdIdx = A.trial
  current : s.activeFwd = active
  fwd : s.fu.dev.mem.fwd active = d₀.mem.fwd active
  density : s.fu.dev.densityInBlocks = d₀.densityInBlocks
  start : A.mem.start ≤ s.cxt.trialMemStart
  room : s.cxt.trialMemStart + copyNeed s.cxt.downloadFlag l ≤ A.mem.start + A.mem.size
  source : ∀ p ∈ copies s.cxt.downloadFlag l, ∀ y ∈ sourceOf d₀ active p.2, s.fu.dev.mem.flash y = d₀.mem.flash y

theorem copies_cons_pos {flag : ℕ → Bool} {p : ℕ × ImageHdr} {l : List (ℕ × ImageHdr)} (h : Unchanged flag p) :
    copies flag (p :: l) = p :: copies flag l := List.filter_cons_of_pos (by simpa using h)

theorem copies_cons_neg {flag : ℕ → Bool} {p : ℕ × ImageHdr} {l : List (ℕ × ImageHdr)} (h : ¬Unchanged flag p) :
    copies flag (p :: l) = copies flag l := List.filter_cons_of_neg (by simpa using h)

theorem copyNeed_cons_pos {flag : ℕ → Bool} {p : ℕ × ImageHdr} {l : List (ℕ × ImageHdr)} (h : Unchanged flag p) :
    copyNeed flag (p :: l) = p.2.diskSize + copyNeed flag l := by
  rw [copyNeed, List.map_cons, List.sum_cons, if_pos (show _ ∧ _ from h), copyNeed]

theorem copyNeed_cons_neg {flag : ℕ → Bool} {p : ℕ × ImageHdr} {l : List (ℕ × ImageHdr)} (h : ¬Unchanged flag p) :
    copyNeed flag (p :: l) = copyNeed flag l := by
  rw [copyNeed, List.map_cons, List.sum_cons, if_neg (show ¬(_ ∧ _) from h), Nat.zero_add, copyNeed]

/-- A failed copy is not forgotten. -/
theorem duplicateLoopWith_none : ∀ (l : List (ℕ × ImageHdr)) (err : Option FuStatus) (buf : Bytes) (s s' : Session),
    duplicateLoopWith F l err buf s = (none, s') → err = none
  | [], err, buf, s, s', h => (Prod.mk.inj h).1
  | (i, x) :: rest, err, buf, s, s', h => by
    rw [duplicateLoopWith] at h
    split at h
    swap
    · exact duplicateLoopWith_none rest err buf s s' h
    split at h
    · cases h
    split at h
    · cases h
    · have := duplicateLoopWith_none rest _ _ _ s' h
      rcases err with _ | e
      · rfl
      · simp at this

/-- What one copied image leaves. -/
structure ImageCopied (A : Area) (F : ReadFaults) (d₀ : Dev) (active : ℕ) (sig : Front) (es : List ImageEntry) (start : ℕ)
    (p : ℕ × ImageHdr) (buf b : Bytes) (fu fu' : Fu) : Prop where
  aligned : p.2.diskSize % 4096 = 0 ∧ start % 4096 = 0
  id : p.2.imageId < 2 ^ 32
  active_lt : active < fwUpgradeMaxFwd
  length : b.length = 4096
  last : b = (buffers buf ((blockOffsets p.2.diskSize).map fun x =>
    blockGot (F.block p.1 x) d₀ (sourceOf d₀ active p.2) x)).getLastD buf
  written : fu'.dev.mem.flash.read start p.2.diskSize = (buffers buf ((blockOffsets p.2.diskSize).map fun x =>
    blockGot (F.block p.1 x) d₀ (sourceOf d₀ active p.2) x)).flatten
  flash : ∀ y ∉ A.trialBlock, y ∉ (⟨start, p.2.diskSize⟩ : Range) → fu'.dev.mem.flash y = fu.dev.mem.flash y
  fdt : fu'.dev.mem.fdt = fu.dev.mem.fdt
  density : fu'.dev.densityInBlocks = fu.dev.densityInBlocks
  lists : Lists (fu'.dev.mem.fwd A.trial) sig (es ++ [truncEntry (newEntry p.2.imageId p.2.version start p.2.diskSize)])

theorem copyOne (hs : A.Sane) (ho : A.OffFwds) (ht : A.trial < fwUpgradeMaxFwd) {p : ℕ × ImageHdr}
    {l : List (ℕ × ImageHdr)} (hp : Unchanged s.cxt.downloadFlag p) (hap : SourceApart A d₀ active p.2)
    (hc : Copying A d₀ active (p :: l) s) (hls : Lists (s.fu.dev.mem.fwd A.trial) sig es) {buf b : Bytes}
    (hb : buf.length = 4096) {src dst : ℕ} {fu₁ fu₂ fu₃ : Fu}
    (hfind : fwUpgradeFindPartition s.activeFwd p.2.imageId s.fu = (.ok src, fu₁))
    (hcr : fwUpgradeCreatePartition s.cxt.trialFwdIdx p.2.imageId p.2.version s.cxt.trialMemStart p.2.diskSize fu₁ =
      (.ok dst, fu₂))
    (hcopy : copyBlocksWith (F.block p.1) src dst (blockOffsets p.2.diskSize) buf fu₂ = ((none, b), fu₃)) :
    ImageCopied A F d₀ active sig es s.cxt.trialMemStart p buf b s.fu fu₃ := by
  have hroom := hc.room
  rw [copyNeed_cons_pos hp] at hroom
  have hmem := hs.data_lt A.mem A.mem_data
  have hns : p.2.imageId ≠ sblImgId := hp.2.2.2
  rcases findPartition_cases s.activeFwd p.2.imageId s.fu with ⟨e, heq⟩ | ⟨k, j, en, hlt, hk, -, hfe, heq⟩
  · rw [heq] at hfind
    cases hfind
  rw [heq] at hfind
  cases hfind
  rw [hc.current] at hlt hfe hcr
  rw [hc.fwd] at hfe
  have hen := (findEntry_id hfe).1
  -- the source is the partition that was found
  have hsrc : sourceOf d₀ active p.2 = ⟨(clientOf active j en).imgStart, (clientOf active j en).imgSize⟩ := by
    rw [sourceOf, partitionRange, hfe]
    rfl
  have hid : p.2.imageId < 2 ^ 32 := by
    obtain ⟨hi, hx⟩ := List.getElem?_eq_some_iff.mp (findEntry_id hfe).2
    rw [← hen, ← hx]
    simp only [Mem.fwd, Fwd.decode, List.getElem_map]
    exact Memory.word_lt _ _
  rw [hc.trial] at hcr
  have hls₁ : Lists ((s.fu.setHandle src (clientOf active j en)).dev.mem.fwd A.trial) sig es := hls
  obtain ⟨hls₂, hcr₂, htab, -⟩ := fuCreate_ok (p := ⟨p.2.imageId, s.cxt.trialMemStart, p.2.diskSize⟩) hls₁
    (by show u32 p.2.imageId ≠ _; rw [u32_of_lt hid]; exact hap.used) hcr
  obtain ⟨halign, hsrc₂, hden₂⟩ : (s.cxt.trialMemStart % 4096 = 0 ∧ p.2.diskSize % 4096 = 0) ∧
      (fu₂.Live src ∧ fu₂.handles src = clientOf active j en) ∧ fu₂.dev.densityInBlocks = s.fu.dev.densityInBlocks := by
    rcases createPartition_cases A.trial p.2.imageId p.2.version s.cxt.trialMemStart p.2.diskSize
      (s.fu.setHandle src (clientOf active j en)) with ⟨e, he⟩ | ⟨k', -, hal, hk', -, -, he⟩ <;> rw [he] at hcr <;> cases hcr
    have hne : src ≠ dst := by
      rintro rfl
      have := (Fu.clientEntry?_free hk').2
      rw [Fu.setHandle_same] at this
      cases this
    refine ⟨hal hns, ?_, rfl⟩
    rw [Fu.Live, Fu.setHandle_other hne, Fu.writes_handles, Fu.setHandle_same]
    exact ⟨⟨(Fu.clientEntry?_free hk).1, Nat.one_pos⟩, rfl⟩
  have hopen : fu₂.Opens src (sourceOf d₀ active p.2) := by
    refine ⟨hsrc₂.1, ?_, ?_, ?_⟩ <;> rw [hsrc₂.2]
    · rw [hsrc]
    · rw [hsrc]
    · show en.imageId ≠ _
      rw [hen]
      exact hns
  have hsame : SameSource d₀ (sourceOf d₀ active p.2) fu₂ := by
    refine ⟨hden₂.trans hc.density, fun y hy => (htab.flash y (hap.trial y hy)).trans ?_⟩
    exact hc.source p (by rw [copies_cons_pos hp]; exact List.mem_cons_self) y hy
  have hplace : (fu₂.handles dst).imgStart = s.cxt.trialMemStart ∧ (fu₂.handles dst).imgSize = p.2.diskSize ∧
      (fu₂.handles dst).imgId = p.2.imageId := by
    rw [hcr₂.handle]
    exact ⟨rfl, rfl, rfl⟩
  have hold : A.Holds (fu₂.handles dst) := by
    refine ⟨fun _ => ?_, fun h => absurd (hplace.2.2.symm.trans h) hns⟩
    rw [hplace.1, hplace.2.1]
    exact ⟨halign.1, A.mem, A.mem_data, hc.start, by omega⟩
  obtain ⟨hw, hlast, hbl, -⟩ := copyBlocksWith_ok hs hap.lt (F.block p.1) _ 0 buf b fu₂ fu₃
    (consecutive_blockOffsets p.2.diskSize) hopen hsame hold (by rw [hplace.2.2]; exact hns)
    (by
      rw [hplace.1, hplace.2.1]
      intro y hy hy'
      rw [Range.mem_mk] at hy'
      have := hc.start
      exact hap.mem y hy (Range.mem_def.mpr (by omega)))
    (Nat.zero_le _) hb hcopy
  have hlen : 4096 * (buffers buf ((blockOffsets p.2.diskSize).map fun x =>
      blockGot (F.block p.1 x) d₀ (sourceOf d₀ active p.2) x)).length = p.2.diskSize := by
    rw [length_buffers, List.length_map, length_blockOffsets halign.2]
  have hframe := hw.flash
  have hwr := hw.written
  rw [hlen, hplace.1, Nat.add_zero] at hframe hwr
  refine ⟨⟨halign.2, halign.1⟩, hid, hlt, hbl, hlast, hwr, fun y hy hy' => ?_, hw.fdt.trans htab.fdt,
    hw.density.trans hden₂, ?_⟩
  · exact (hframe y hy').trans (htab.flash y hy)
  · refine hls₂.low ht fun x hx => hframe x ?_
    rw [Range.mem_mk]
    rcases ho A.mem A.mem_data with hz | hz <;> have := hc.start <;> omega

/-- The next image finds the sources as they were. -/
theorem Copying.next (ho : A.OffFwds) (hne : active ≠ A.trial) {p : ℕ × ImageHdr} {l : List (ℕ × ImageHdr)}
    (hp : Unchanged s.cxt.downloadFlag p) (hap : ∀ p' ∈ copies s.cxt.downloadFlag (p :: l), SourceApart A d₀ active p'.2)
    (hc : Copying A d₀ active (p :: l) s) {buf b : Bytes} {fu : Fu}
    (hi : ImageCopied A F d₀ active sig es s.cxt.trialMemStart p buf b s.fu fu) (hcxt : s'.cxt = { s.cxt with
      trialMemStart := s.cxt.trialMemStart + p.2.diskSize }) (hdev : s'.fu.dev = fu.dev) : Copying A d₀ active l s' := by
  have hroom := hc.room
  rw [copyNeed_cons_pos hp] at hroom
  have hstart := hc.start
  have hout : ∀ y ∉ A.trialBlock, y ∉ A.mem → fu.dev.mem.flash y = s.fu.dev.mem.flash y := by
    intro y hy hy'
    refine hi.flash y hy fun hm => hy' ?_
    rw [Range.mem_mk] at hm
    exact Range.mem_def.mpr (by omega)
  refine ⟨?_, ?_, ?_, ?_, ?_, ?_, ?_⟩
  · rw [hcxt]
    exact hc.trial
  · rw [Session.activeFwd, hdev, hi.fdt]
    exact hc.current
  · rw [hdev, ← hc.fwd]
    refine Mem.fwd_congr fun x hx => hout x ?_ ?_
    · rw [Area.trialBlock, Range.mem_mk]
      rw [Range.mem_mk] at hx
      omega
    · have hlt := hi.active_lt
      simp only [fwUpgradeMaxFwd] at hlt
      rw [Range.mem_mk] at hx
      exact ho.not_mem A.mem_data (by simp only [fwUpgradeMaxFwd]; omega)
  · rw [hdev, hi.density]
    exact hc.density
  · rw [hcxt]
    exact Nat.le_trans hstart (Nat.le_add_right _ _)
  · rw [hcxt]
    simp only
    omega
  · rw [hcxt, hdev]
    intro p' hp' y hy
    have hmem : p' ∈ copies s.cxt.downloadFlag (p :: l) := by
      rw [copies_cons_pos hp]
      exact List.mem_cons_of_mem _ hp'
    exact (hout y ((hap p' hmem).trial y hy) ((hap p' hmem).mem y hy)).trans (hc.source p' hmem y hy)

/-- What the copies leave. -/
structure Duplicated (A : Area) (F : ReadFaults) (d₀ : Dev) (active : ℕ) (sig : Front) (es : List ImageEntry)
    (l : List (ℕ × ImageHdr)) (buf : Bytes) (s s' : Session) : Prop where
  fdt : s'.fu.dev.mem.fdt = s.fu.dev.mem.fdt
  flash : ∀ y ∉ A.trialBlock, y ∉ (⟨s.cxt.trialMemStart, copyNeed s.cxt.downloadFlag l⟩ : Range) →
    s'.fu.dev.mem.flash y = s.fu.dev.mem.flash y
  lists : Lists (s'.fu.dev.mem.fwd A.trial) sig
    (es ++ copyEntries s.cxt.trialMemStart (copies s.cxt.downloadFlag l))
  aligned : ∀ p ∈ copies s.cxt.downloadFlag l, p.2.diskSize % 4096 = 0 ∧ p.2.imageId < 2 ^ 32
  start : copies s.cxt.downloadFlag l ≠ [] → s.cxt.trialMemStart % 4096 = 0 ∧ active < fwUpgradeMaxFwd
  bytes : CopiesMatch s'.fu.dev.mem.flash d₀ active s.cxt.trialMemStart (copies s.cxt.downloadFlag l) ↔
    AllDelivered F d₀ active buf (copies s.cxt.downloadFlag l)

theorem Duplicated.skip {p : ℕ × ImageHdr} {l : List (ℕ × ImageHdr)} {buf : Bytes}
    (hp : ¬Unchanged s.cxt.downloadFlag p) (h : Duplicated A F d₀ active sig es l buf s s') :
    Duplicated A F d₀ active sig es (p :: l) buf s s' := by
  refine ⟨h.fdt, ?_, ?_, ?_, ?_, ?_⟩
  · rw [copyNeed_cons_neg hp]
    exact h.flash
  · rw [copies_cons_neg hp]
    exact h.lists
  · rw [copies_cons_neg hp]
    exact h.aligned
  · rw [copies_cons_neg hp]
    exact h.start
  · rw [copies_cons_neg hp]
    exact h.bytes

theorem Duplicated.add {p : ℕ × ImageHdr} {l : List (ℕ × ImageHdr)} {buf b : Bytes} {fu : Fu} {s₁ : Session}
    (ho : A.OffFwds) (ht : A.trial < fwUpgradeMaxFwd) (hb : buf.length = 4096) (hp : Unchanged s.cxt.downloadFlag p)
    (hc : Copying A d₀ active (p :: l) s)
    (hi : ImageCopied A F d₀ active sig es s.cxt.trialMemStart p buf b s.fu fu) (hcxt : s₁.cxt = { s.cxt with
      trialMemStart := s.cxt.trialMemStart + p.2.diskSize }) (hdev : s₁.fu.dev = fu.dev)
    (h : Duplicated A F d₀ active sig
      (es ++ [truncEntry (newEntry p.2.imageId p.2.version s.cxt.trialMemStart p.2.diskSize)]) l b s₁ s') :
    Duplicated A F d₀ active sig es (p :: l) buf s s' := by
  have hroom := hc.room
  have hstart := hc.start
  rw [copyNeed_cons_pos hp] at hroom
  have hfl : s₁.cxt.downloadFlag = s.cxt.downloadFlag := by rw [hcxt]
  have hst : s₁.cxt.trialMemStart = s.cxt.trialMemStart + p.2.diskSize := by rw [hcxt]
  have hflash := h.flash
  have hbytes := h.bytes
  rw [hst, hfl] at hflash hbytes
  -- the later copies are written behind this one
  have hkeep : s'.fu.dev.mem.flash.read s.cxt.trialMemStart p.2.diskSize =
      fu.dev.mem.flash.read s.cxt.trialMemStart p.2.diskSize := by
    refine Memory.read_congr fun k hk => ?_
    rw [← hdev]
    refine hflash _ ?_ ?_
    · exact ho.not_trial ht A.mem_data (Range.mem_def.mpr (by omega))
    · rw [Range.mem_mk]
      omega
  refine ⟨?_, ?_, ?_, ?_, ?_, ?_⟩
  · rw [h.fdt, hdev, hi.fdt]
  · rw [copyNeed_cons_pos hp]
    intro y hy hy'
    rw [Range.mem_mk] at hy'
    refine (hflash y hy (by rw [Range.mem_mk]; omega)).trans ?_
    rw [hdev]
    exact hi.flash y hy (by rw [Range.mem_mk]; omega)
  · have hl := h.lists
    rw [hst, hfl, List.append_assoc, List.singleton_append] at hl
    rw [copies_cons_pos hp]
    exact hl
  · rw [copies_cons_pos hp]
    intro p' hp'
    rcases List.mem_cons.mp hp' with rfl | hp'
    · exact ⟨hi.aligned.1, hi.id⟩
    · exact h.aligned p' (by rw [hfl]; exact hp')
  · exact fun _ => ⟨hi.aligned.2, hi.active_lt⟩
  · rw [copies_cons_pos hp, CopiesMatch, allDelivered_cons, hkeep, hi.written,
      image_matches_iff (F.block p.1) d₀ (sourceOf d₀ active p.2) hi.aligned.1 hb]
    refine and_congr_right fun hdel => ?_
    have hbuf := (buffers_eq_iff (fun x => blockGot (F.block p.1 x) d₀ (sourceOf d₀ active p.2) x)
      (fun x => d₀.mem.flash.read ((sourceOf d₀ active p.2).start + x) 4096) _ _).mpr hdel.2
    rw [hbytes, hi.last, hbuf, imageReads, List.map_map]
    simp only [Function.comp_def]

theorem duplicateLoopWith_ok (hs : A.Sane) (ho : A.OffFwds) (ht : A.trial < fwUpgradeMaxFwd) (hne : active ≠ A.trial) :
    ∀ (l : List (ℕ × ImageHdr)) (buf : Bytes) (s s' : Session) (es : List ImageEntry), Copying A d₀ active l s →
    (∀ p ∈ copies s.cxt.downloadFlag l, SourceApart A d₀ active p.2) → buf.length = 4096 →
    Lists (s.fu.dev.mem.fwd A.trial) sig es → duplicateLoopWith F l none buf s = (none, s') →
    Duplicated A F d₀ active sig es l buf s s'
  | [], buf, s, s', es, _, _, _, hls, heq => by
    cases heq
    refine ⟨rfl, fun _ _ _ => rfl, by rw [show copies s.cxt.downloadFlag [] = [] from rfl, copyEntries, List.append_nil]; exact hls,
      fun p hp => absurd hp List.not_mem_nil, fun h => absurd rfl h, ?_⟩
    exact iff_of_true trivial ⟨fun p hp => absurd hp List.not_mem_nil, trivial⟩
  | (i, h) :: rest, buf, s, s', es, hc, hap, hb, hls, heq => by
    rw [duplicateLoopWith] at heq
    by_cases hp : Unchanged s.cxt.downloadFlag (i, h)
    swap
    · rw [if_neg hp] at heq
      have hc' : Copying A d₀ active rest s := by
        refine ⟨hc.trial, hc.current, hc.fwd, hc.density, hc.start, ?_, ?_⟩
        · rw [← copyNeed_cons_neg (p := (i, h)) hp]
          exact hc.room
        · rw [← copies_cons_neg (p := (i, h)) hp]
          exact hc.source
      rw [copies_cons_neg hp] at hap
      exact (duplicateLoopWith_ok hs ho ht hne rest buf s s' es hc' hap hb hls heq).skip hp
    rw [if_pos hp] at heq
    rcases hfind : unlessFault (F.find i) (fwUpgradeFindPartition s.activeFwd h.imageId) s.fu with ⟨e | src, fu₁⟩ <;>
      simp only [hfind] at heq
    · cases heq
    rcases hcr : unlessFault (F.create i) (fwUpgradeCreatePartition s.cxt.trialFwdIdx h.imageId h.version
      s.cxt.trialMemStart h.diskSize) fu₁ with ⟨e | dst, fu₂⟩ <;> simp only [hcr] at heq
    · cases heq
    rcases hcopy : copyBlocksWith (F.block i) src dst (blockOffsets h.diskSize) buf fu₂ with ⟨⟨err, b⟩, fu₃⟩
    simp only [hcopy] at heq
    have herr : err = none := by
      have := duplicateLoopWith_none _ _ _ _ _ heq
      rcases err with _ | e
      · rfl
      · simp at this
    subst herr
    have hi := copyOne hs ho ht hp (hap _ (by rw [copies_cons_pos hp]; exact List.mem_cons_self)) hc hls hb
      (unlessFault_ok hfind) (unlessFault_ok hcr) hcopy
    have hmem := hs.data_lt A.mem A.mem_data
    have hroom := hc.room
    rw [copyNeed_cons_pos hp] at hroom
    simp only at hroom
    have hu : u32 (s.cxt.trialMemStart + h.diskSize) = s.cxt.trialMemStart + h.diskSize := u32_of_lt (by omega)
    simp only [Session.setCxt, hu] at heq
    generalize hs₁ : ({ s with
        fu := (fu₃.freeHandle src).freeHandle dst
        cxt := { s.cxt with trialMemStart := s.cxt.trialMemStart + h.diskSize } } : Session) = s₁ at heq
    have hcxt : s₁.cxt = { s.cxt with trialMemStart := s.cxt.trialMemStart + h.diskSize } := by rw [← hs₁]
    have hdev : s₁.fu.dev = fu₃.dev := by
      rw [← hs₁]
      rfl
    have hc₁ := Copying.next ho hne hp hap hc hi hcxt hdev
    refine Duplicated.add ho ht hb hp hc hi hcxt hdev (duplicateLoopWith_ok hs ho ht hne rest b s₁ s' _ hc₁ ?_ hi.length ?_ heq)
    · intro p' hp'
      refine hap p' ?_
      rw [copies_cons_pos hp]
      rw [hcxt] at hp'
      exact List.mem_cons_of_mem _ hp'
    · rw [hdev]
      exact hi.lists

end

/-! ### When the copies are faithful -/

/-- The call that copies finds room for the copies behind the FWD blocks, a trial FWD with entries and then blank
    ones, and sources apart from both. -/
structure CopySetting (env : Env) (A : Area) (s : Session) : Prop where
  sane : A.Sane
  off : A.OffFwds
  trial : s.cxt.trialFwdIdx = A.trial
  trial_lt : A.trial < fwUpgradeMaxFwd
  ne : s.activeFwd ≠ A.trial
  start : A.mem.start ≤ s.cxt.trialMemStart
  room : s.cxt.trialMemStart + copyNeed s.cxt.downloadFlag (s.cxt.images env) ≤ A.mem.start + A.mem.size
  lists : ∃ sig es, Lists (s.fu.dev.mem.fwd A.trial) sig es
  source : ∀ p ∈ copies s.cxt.downloadFlag (s.cxt.images env), SourceApart A s.fu.dev s.activeFwd p.2

/-- A session that has received its images is in such a setting. -/
theorem Idle.copySetting {env : Env} {fu₀ : Fu} {A : Area} {s : Session} {sig : Front} {hid : List ImageEntry}
    {items : List Item} (hL : Layout env.cfg fu₀ A) (ho : A.OffFwds) (hb : Busy env A fu₀.dev s)
    (h : Idle env A sig hid items s)
    (hsrc : ∀ p ∈ copies s.cxt.downloadFlag (s.cxt.images env), SourceApart A s.fu.dev s.activeFwd p.2) :
    CopySetting env A s := by
  have hneed := copyNeed_le s.cxt env hb.placing.total
  have hbud := hb.placing.budget
  refine ⟨hL.sane, ho, hb.placing.trial, hb.grown.1, ?_, hb.placing.start_le, ?_, ⟨sig, _, h.lists⟩, hsrc⟩
  · rw [hL.activeFwd hb.grown]
    exact hL.ne
  · rw [Cxt.images]
    omega

/-- Each image that is copied has its entry in the trial FWD, behind those that were there, and the partition of
    the entry holds the first `disk_size` bytes of the active FWD's partition. -/
def Faithful (env : Env) (s s' : Session) : Prop :=
  ∀ k p, (copies s.cxt.downloadFlag (s.cxt.images env))[k]? = some p →
    ∃ e, (s'.fu.dev.mem.fwd s.cxt.trialFwdIdx).imageEntries[freeEntry (s.fu.dev.mem.fwd s.cxt.trialFwdIdx) + k]? = some e ∧
      e.imageId = p.2.imageId ∧ (clientOf s.cxt.trialFwdIdx k e).imgSize = p.2.diskSize ∧
      s'.fu.dev.mem.flash.read (clientOf s.cxt.trialFwdIdx k e).imgStart p.2.diskSize =
        (s'.fu.dev.mem.flash.read (sourceOf s'.fu.dev s'.activeFwd p.2).start
          (sourceOf s'.fu.dev s'.activeFwd p.2).size).take p.2.diskSize

theorem Lists.freeEntry_eq {f : Fwd} {sig : Front} {es : List ImageEntry} (h : Lists f sig es)
    (hl : f.imageEntries.length = maxFwImageEntries) (hlt : es.length < maxFwImageEntries) : freeEntry f = es.length := by
  refine h.free_eq hl (Nat.lt_of_le_of_lt ?_ hlt)
  have he := h.entries _ hlt
  rw [List.getD_eq_default _ _ (Nat.le_refl _)] at he
  obtain ⟨hlt', he'⟩ := List.getElem?_eq_some_iff.mp he
  refine Nat.le_of_not_lt fun hc => ?_
  have := List.not_of_lt_findIdx hc
  rw [he'] at this
  exact absurd (show blankEntry.imageId = 4294967295 from rfl) (by simpa using this)

/-- The entry of a copy describes its place. -/
theorem copyEntry_client {h : ImageHdr} (start : ℕ) (hid : h.imageId < 2 ^ 32) (hns : h.imageId ≠ sblImgId)
    (hst : start % 4096 = 0) (hsz : h.diskSize % 4096 = 0) (hlt : start + h.diskSize < 2 ^ 31) (t k : ℕ) :
    (truncEntry (newEntry h.imageId h.version start h.diskSize)).imageId = h.imageId ∧
      (clientOf t k (truncEntry (newEntry h.imageId h.version start h.diskSize))).imgStart = start ∧
      (clientOf t k (truncEntry (newEntry h.imageId h.version start h.diskSize))).imgSize = h.diskSize := by
  have he : truncEntry (newEntry h.imageId h.version start h.diskSize) =
      ⟨h.imageId, start / 4096, h.diskSize / 4096, u32 h.version⟩ := by
    rw [newEntry, if_pos hns, truncEntry]
    simp only
    rw [u32_of_lt hid, u32_of_lt (show start / 4096 < _ by omega), u32_of_lt (show h.diskSize / 4096 < _ by omega)]
  rw [he]
  refine ⟨rfl, ?_, ?_⟩ <;> simp only [clientOf] <;> rw [if_pos hns, u32_of_lt (by omega)] <;> omega

/-- Where copy `k` goes. -/
def copyStart (start : ℕ) (l : List (ℕ × ImageHdr)) (k : ℕ) : ℕ := start + ((l.take k).map fun p => p.2.diskSize).sum

theorem copyEntries_getElem? : ∀ (l : List (ℕ × ImageHdr)) (start k : ℕ), (copyEntries start l)[k]? =
    (l[k]?).map fun p => truncEntry (newEntry p.2.imageId p.2.version (copyStart start l k) p.2.diskSize)
  | [], _, _ => rfl
  | p :: l, start, 0 => rfl
  | p :: l, start, k + 1 => by
    rw [copyEntries, List.getElem?_cons_succ, copyEntries_getElem? l, List.getElem?_cons_succ]
    simp only [copyStart, List.take_succ_cons, List.map_cons, List.sum_cons, Nat.add_assoc]

theorem copiesMatch_iff (after : Memory) (d : Dev) (active : ℕ) : ∀ (l : List (ℕ × ImageHdr)) (start : ℕ),
    CopiesMatch after d active start l ↔ ∀ k p, l[k]? = some p → after.read (copyStart start l k) p.2.diskSize =
      (d.mem.flash.read (sourceOf d active p.2).start (sourceOf d active p.2).size).take p.2.diskSize
  | [], start => iff_of_true trivial fun k p h => by cases h
  | p :: l, start => by
    have hstart : ∀ k, copyStart start (p :: l) (k + 1) = copyStart (start + p.2.diskSize) l k := fun k => by
      simp only [copyStart, List.take_succ_cons, List.map_cons, List.sum_cons, Nat.add_assoc]
    rw [CopiesMatch, copiesMatch_iff after d active l]
    constructor
    · rintro ⟨h₁, h₂⟩ k p' hk
      rcases k with _ | k
      · cases hk
        exact h₁
      · rw [hstart]
        exact h₂ k p' hk
    · intro h
      refine ⟨h 0 p rfl, fun k p' hk => ?_⟩
      rw [← hstart]
      exact h (k + 1) p' hk

theorem copyNeed_eq (flag : ℕ → Bool) : ∀ l : List (ℕ × ImageHdr),
    copyNeed flag l = ((copies flag l).map fun p => p.2.diskSize).sum
  | [] => rfl
  | p :: l => by
    by_cases hp : Unchanged flag p
    · rw [copyNeed_cons_pos hp, copies_cons_pos hp, List.map_cons, List.sum_cons, copyNeed_eq flag l]
    · rw [copyNeed_cons_neg hp, copies_cons_neg hp, copyNeed_eq flag l]

theorem copyStart_le (start : ℕ) {k : ℕ} {l : List (ℕ × ImageHdr)} {p : ℕ × ImageHdr} (h : l[k]? = some p) :
    copyStart start l k + p.2.diskSize ≤ start + (l.map fun p => p.2.diskSize).sum := by
  obtain ⟨hk, rfl⟩ := List.getElem?_eq_some_iff.mp h
  have hsplit : (l.map fun p => p.2.diskSize).sum =
      ((l.take k).map fun p => p.2.diskSize).sum + ((l.drop k).map fun p => p.2.diskSize).sum := by
    rw [← List.sum_append, ← List.map_append, List.take_append_drop]
  rw [List.drop_eq_getElem_cons hk, List.map_cons, List.sum_cons] at hsplit
  rw [copyStart]
  omega

theorem copyStart_aligned {start k : ℕ} {l : List (ℕ × ImageHdr)} (hs : start % 4096 = 0)
    (h : ∀ p ∈ l, p.2.diskSize % 4096 = 0) : copyStart start l k % 4096 = 0 := by
  have hd : 4096 ∣ ((l.take k).map fun p => p.2.diskSize).sum := by
    refine List.dvd_sum fun n hn => ?_
    obtain ⟨p, hp, rfl⟩ := List.mem_map.mp hn
    exact Nat.dvd_of_mod_eq_zero (h p (List.mem_of_mem_take hp))
  rw [copyStart]
  omega

section

variable {env : Env} {A : Area} {F : ReadFaults} {s s' : Session} {sig : Front} {es : List ImageEntry}

theorem CopySetting.copying (h : CopySetting env A s) : Copying A s.fu.dev s.activeFwd (s.cxt.images env) s :=
  ⟨h.trial, rfl, rfl, rfl, h.start, h.room, fun _ _ _ _ => rfl⟩

/-- The sources are the same after the call. -/
theorem Duplicated.source (hset : CopySetting env A s) {buf : Bytes}
    (hd : Duplicated A F s.fu.dev s.activeFwd sig es (s.cxt.images env) buf s s') {p : ℕ × ImageHdr}
    (hp : p ∈ copies s.cxt.downloadFlag (s.cxt.images env)) :
    sourceOf s'.fu.dev s'.activeFwd p.2 = sourceOf s.fu.dev s.activeFwd p.2 ∧
      ∀ y ∈ sourceOf s.fu.dev s.activeFwd p.2, s'.fu.dev.mem.flash y = s.fu.dev.mem.flash y := by
  have hroom := hset.room
  have hstart := hset.start
  have hout : ∀ y ∉ A.trialBlock, y ∉ A.mem → s'.fu.dev.mem.flash y = s.fu.dev.mem.flash y := by
    intro y hy hy'
    refine hd.flash y hy fun hm => hy' ?_
    rw [Range.mem_mk] at hm
    exact Range.mem_def.mpr (by omega)
  have hact : s'.activeFwd = s.activeFwd := by rw [Session.activeFwd, Session.activeFwd, hd.fdt]
  have hlt := (hd.start (List.ne_nil_of_mem hp)).2
  have hne := hset.ne
  refine ⟨?_, fun y hy => hout y ((hset.source p hp).trial y hy) ((hset.source p hp).mem y hy)⟩
  rw [hact, sourceOf, sourceOf]
  congr 1
  refine Mem.fwd_congr fun x hx => hout x ?_ ?_
  · rw [Range.mem_mk] at hx
    rw [Area.trialBlock, Range.mem_mk]
    omega
  · rw [Range.mem_mk] at hx
    simp only [fwUpgradeMaxFwd] at hlt
    exact hset.off.not_mem A.mem_data (by simp only [fwUpgradeMaxFwd]; omega)

/-- When the call returns OK, the copies are faithful exactly when no copy is longer than its source and each of
    its blocks is delivered. -/
theorem duplicate_images_faithful_iff (hset : CopySetting env A s)
    (h : fwUpgradeProcessDuplicateImages F env s = (none, s')) :
    Faithful env s s' ↔ AllDelivered F s.fu.dev s.activeFwd ((List.range 4096).map env.heap)
      (copies s.cxt.downloadFlag (s.cxt.images env)) := by
  obtain ⟨sig, es, hls⟩ := hset.lists
  have hd := duplicateLoopWith_ok hset.sane hset.off hset.trial_lt hset.ne _ _ s s' es hset.copying hset.source
    ((List.length_map _).trans List.length_range) hls h
  have hmem := hset.sane.data_lt A.mem A.mem_data
  have hroom := hset.room
  rw [copyNeed_eq] at hroom
  rw [← hd.bytes, copiesMatch_iff, Faithful]
  refine forall₃_congr fun k p hk => ?_
  have hp := List.mem_of_getElem? hk
  set l := copies s.cxt.downloadFlag (s.cxt.images env) with hl
  set en := truncEntry (newEntry p.2.imageId p.2.version (copyStart s.cxt.trialMemStart l k) p.2.diskSize) with hen
  have hce : (copyEntries s.cxt.trialMemStart l)[k]? = some en := by
    rw [copyEntries_getElem?, hk]
    rfl
  have hlt : es.length + k < maxFwImageEntries := by
    have hlen := hd.lists.length
    rw [List.length_append, ← hl] at hlen
    have := (List.getElem?_eq_some_iff.mp hce).1
    omega
  have hfree : freeEntry (s.fu.dev.mem.fwd s.cxt.trialFwdIdx) = es.length := by
    rw [hset.trial]
    exact hls.freeEntry_eq (length_entries _ _) (by omega)
  have hentry : (s'.fu.dev.mem.fwd s.cxt.trialFwdIdx).imageEntries[es.length + k]? = some en := by
    rw [hset.trial, hd.lists.entries _ hlt, List.getD_eq_getElem?_getD, List.getElem?_append_right (Nat.le_add_right _ _),
      Nat.add_sub_cancel_left, hce]
    rfl
  have hns : p.2.imageId ≠ sblImgId := by
    have := (List.mem_filter.mp hp).2
    exact (of_decide_eq_true this).2.2.2
  obtain ⟨hal, hid⟩ := hd.aligned p hp
  have hle := copyStart_le s.cxt.trialMemStart hk
  obtain ⟨hcid, hcst, hcsz⟩ := copyEntry_client (copyStart s.cxt.trialMemStart l k) hid hns
    (copyStart_aligned (hd.start (List.ne_nil_of_mem hp)).1 fun p' hp' => (hd.aligned p' hp').1) hal (by omega)
    s.cxt.trialFwdIdx k
  obtain ⟨hsrc, hsame⟩ := hd.source hset hp
  have hread : s'.fu.dev.mem.flash.read (sourceOf s.fu.dev s.activeFwd p.2).start (sourceOf s.fu.dev s.activeFwd p.2).size =
      s.fu.dev.mem.flash.read (sourceOf s.fu.dev s.activeFwd p.2).start (sourceOf s.fu.dev s.activeFwd p.2).size :=
    Memory.read_congr fun i hi => hsame ((sourceOf s.fu.dev s.activeFwd p.2).start + i)
      (Range.mem_def.mpr ⟨Nat.le_add_right _ _, Nat.add_lt_add_left hi _⟩)
  rw [hfree, hsrc, hread]
  constructor
  · rintro ⟨e, he, -, -, hbytes⟩
    rw [hentry, Option.some.injEq] at he
    rw [← he, hcst] at hbytes
    exact hbytes
  · intro hbytes
    exact ⟨en, hentry, hcid, hcsz, by rw [hcst]; exact hbytes⟩

end

/-- The small device with twice the flash, at the copies of a partial upgrade: an APP of `n` bytes did not change. -/
def copySession (n : ℕ) : Session where
  fu := { smallFu with dev := { smallFu.dev with densityInBlocks := 16 } }
  cxt := { Cxt.init 0 with
    state := .duplicateImages
    isFirst := false
    trialFwdIdx := 1
    trialMemStart := 28672
    trialMemSize := 36864
    totalImages := 1
    imageIndex := 1
    downloadFlag := fun _ => false
    imageHdr := [⟨1, appImgId, 1, n, 3, 1, []⟩] }
  script := ⟨[], [], []⟩
  phase := .process
  verified := []

/-- Where the copies of `copySession` go. -/
def copyArea : Area := ⟨0, 1, ⟨28672, 36864⟩, ⟨20480, 4096⟩, ⟨0, 0⟩, ⟨0x210000, 0x10000⟩⟩

theorem copySession_source : sourceOf (copySession 4096).fu.dev (copySession 4096).activeFwd
    ⟨1, appImgId, 1, 4096, 3, 1, []⟩ = ⟨12288, 4096⟩ := by decide +kernel

theorem copySession_copies : copies (copySession 4096).cxt.downloadFlag ((copySession 4096).cxt.images smallAppEnv) =
    [(0, ⟨1, appImgId, 1, 4096, 3, 1, []⟩)] := by decide +kernel

theorem copySession_setting : CopySetting smallAppEnv copyArea (copySession 4096) := by
  refine ⟨⟨by decide, by decide, ?_⟩, by decide, rfl, by decide, by decide +kernel, by decide, by decide +kernel,
    ⟨blankFront, [], ?_⟩, ?_⟩
  · intro _ q hq
    simp only [copyArea, Area.data, List.mem_cons, List.not_mem_nil, or_false] at hq
    rcases hq with rfl | rfl | rfl
    · exact (Range.disj_of_le (by decide)).symm
    · exact (Range.disj_of_le (by decide)).symm
    · exact Range.disj_of_le (by decide)
  · exact ⟨by decide +kernel, by decide +kernel, by decide, by decide +kernel, fun e he => absurd he List.not_mem_nil⟩
  · intro p hp
    rw [copySession_copies, List.mem_singleton] at hp
    subst hp
    refine ⟨by decide, ?_, ?_, ?_⟩ <;> rw [copySession_source]
    · decide
    · exact Range.disj_of_le (by decide)
    · exact (Range.disj_of_le (by decide)).symm

/-- An APP that did not change, of the size of its partition, is copied. -/
theorem duplicate_images_faithful_small : ∃ s', fwUpgradeProcessDuplicateImages .never smallAppEnv (copySession 4096) = (none, s') ∧
    Faithful smallAppEnv (copySession 4096) s' := by
  have hok : (fwUpgradeProcessDuplicateImages .never smallAppEnv (copySession 4096)).1 = none := by decide +kernel
  rcases hc : fwUpgradeProcessDuplicateImages .never smallAppEnv (copySession 4096) with ⟨r, s'⟩
  rw [hc] at hok
  subst hok
  refine ⟨s', rfl, (duplicate_images_faithful_iff copySession_setting hc).mpr ?_⟩
  rw [copySession_copies]
  refine ⟨by decide +kernel, ?_⟩
  have hoff : blockOffsets 4096 = [0] := by decide
  have hin : (copySession 4096).fu.dev.InFlash 12288 4096 := by decide +kernel
  rw [List.flatMap_cons, List.flatMap_nil, List.append_nil, imageReads, hoff, copySession_source, List.map_cons, List.map_nil,
    Delivered, blockGot, if_pos ⟨by decide, hin⟩]
  refine ⟨?_, trivial⟩
  simp only [Option.getD_some, ReadFaults.never, transferred]

/-- A flash read fails and leaves zeros in the buffer: they are copied, and the call returns OK. -/
theorem failed_read_copied : ∃ s', fwUpgradeProcessDuplicateImages ⟨fun _ => false, fun _ => false, fun _ _ => some fun _ => 0⟩
      smallAppEnv (copySession 4096) = (none, s') ∧ ¬Faithful smallAppEnv (copySession 4096) s' := by
  set F : ReadFaults := ⟨fun _ => false, fun _ => false, fun _ _ => some fun _ => 0⟩ with hF
  have hok : (fwUpgradeProcessDuplicateImages F smallAppEnv (copySession 4096)).1 = none := by decide +kernel
  have hent : ((fwUpgradeProcessDuplicateImages F smallAppEnv (copySession 4096)).2.fu.dev.mem.fwd 1).imageEntries[0]? =
      some ⟨appImgId, 7, 1, 1⟩ := by decide +kernel
  have hnew : (fwUpgradeProcessDuplicateImages F smallAppEnv (copySession 4096)).2.fu.dev.mem.flash 28672 = 0 := by
    decide +kernel
  have hold : (fwUpgradeProcessDuplicateImages F smallAppEnv (copySession 4096)).2.fu.dev.mem.flash 12288 = 0xFF := by
    decide +kernel
  have hsrc : sourceOf (fwUpgradeProcessDuplicateImages F smallAppEnv (copySession 4096)).2.fu.dev
      (fwUpgradeProcessDuplicateImages F smallAppEnv (copySession 4096)).2.activeFwd ⟨1, appImgId, 1, 4096, 3, 1, []⟩ =
      ⟨12288, 4096⟩ := by decide +kernel
  rcases hc : fwUpgradeProcessDuplicateImages F smallAppEnv (copySession 4096) with ⟨r, s'⟩
  rw [hc] at hok hent hnew hold hsrc
  subst hok
  refine ⟨s', rfl, fun hf => ?_⟩
  obtain ⟨e, he, -, -, hbytes⟩ := hf 0 (0, ⟨1, appImgId, 1, 4096, 3, 1, []⟩) (by decide +kernel)
  have hfree : freeEntry ((copySession 4096).fu.dev.mem.fwd (copySession 4096).cxt.trialFwdIdx) = 0 := by decide +kernel
  rw [hfree] at he
  rw [show (s'.fu.dev.mem.fwd (copySession 4096).cxt.trialFwdIdx).imageEntries[0 + 0]? = some ⟨appImgId, 7, 1, 1⟩ from hent,
    Option.some.injEq] at he
  subst he
  rw [hsrc] at hbytes
  have h0 := congrArg (fun b : Bytes => b[0]?) hbytes
  simp only at h0
  rw [List.getElem?_take_of_lt (by decide), Memory.getElem?_read _ _ _ _ (by decide), Memory.getElem?_read _ _ _ _ (by decide)] at h0
  rw [Option.some.injEq] at h0
  have h1 : s'.fu.dev.mem.flash 28672 = s'.fu.dev.mem.flash 12288 := h0
  rw [hnew, hold] at h1
  exact absurd h1 (by decide)

end Qcc730.Upgrade
