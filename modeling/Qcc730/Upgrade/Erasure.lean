import Qcc730.Flash.Discipline
import Qcc730.Upgrade.Frame
import Qcc730.Upgrade.Writing

/-! Every image byte is programmed once, into an erased byte.

    An image is erased block by block just ahead of what is written: its first block when its partition is
    created, a block that a piece enters, and the next block when a piece ends one. A session is watched here
    together with what the claim speaks about and the code does not keep: where the current image lies, from which
    write of the log on, which bytes were received for it, and what the state `ERASE_SECOND_FS` erased. -/

namespace Qcc730.Upgrade
open Lib Flash

/-! ### Bytes laid down in a partition -/

/-- Where the flash ends. -/
def flashEnd (d : Dev) : ℕ := u32 (d.densityInBlocks * 4096)

theorem flashEnd_lt (d : Dev) : flashEnd d < 2 ^ 32 := u32_lt _

theorem flashEnd_mod (d : Dev) : flashEnd d % 4096 = 0 := by
  rw [flashEnd, u32]
  omega

/-- The handle of a partition that lies at `p`. -/
structure Client.At (c : Client) (p : Spot) : Prop where
  imgId : c.imgId = p.imgId
  imgStart : u32 c.imgStart = p.imgStart
  imgSize : c.imgSize = p.imgSize

theorem Client.At.addr {c : Client} {p : Spot} (h : c.At p) (o : ℕ) : u32 (c.imgStart + o) = u32 (p.imgStart + o) := by
  rw [← h.imgStart]
  simp only [u32]
  omega

/-- The bytes `b` have been written to the partition `p` since write `n` of the log, and the bytes after them are
    vacant as far as `hi`. -/
structure Laid (d₀ : Dev) (P : ℕ → Prop) (n : ℕ) (p : Spot) (b : Bytes) (hi : ℕ) (d : Dev) : Prop where
  ext : ∃ ws, d = d₀.writes ws
  since : n ≤ d.log.length
  written : Written d.mem p b
  lt : p.imgStart + b.length < 2 ^ 32
  aligned : p.imgId ≠ sblImgId → p.imgStart % 4096 = 0 ∧ p.imgSize % 4096 = 0
  fits : p.imgId ≠ sblImgId → b ≠ [] → p.imgStart + b.length ≤ flashEnd d
  programmed : p.imgId ≠ sblImgId → ∀ x, ProgrammedSince n d.log x → p.imgStart ≤ x ∧ x < p.imgStart + b.length
  vacant : p.imgId ≠ sblImgId → ∀ x, p.imgStart + b.length ≤ x → x < p.imgStart + hi → x < p.imgStart + p.imgSize →
    Vacant P d.log x

section

variable {d₀ d : Dev} {P : ℕ → Prop} {n k hi o : ℕ} {p : Spot} {b : Bytes} {s : Session}

theorem Laid.mono (h : Laid d₀ P n p b hi d) {lo : ℕ} (hlo : lo ≤ hi) : Laid d₀ P n p b lo d :=
  { h with vacant := fun hid x hx hx' => h.vacant hid x hx (by omega) }

theorem writes_ext (h : ∃ ws, d = d₀.writes ws) (vs : List Write) : ∃ ws, d.writes vs = d₀.writes ws := by
  obtain ⟨ws, rfl⟩ := h
  exact ⟨ws ++ vs, (Dev.writes_append _ _ _).symm⟩

/-- An erase of the block at `o`, behind what is written. -/
theorem Laid.eraseBlock (hl : Laid d₀ P n p b hi d) (hn : ∀ j, n ≤ j → P j) (ho : b.length ≤ o) (hoh : o ≤ hi) :
    AllInOrder P n d.log [.erase (p.imgStart + o)] ∧ Laid d₀ P n p b (o + 4096) (d.writes [.erase (p.imgStart + o)]) ∧
      Laid d₀ P n p b hi (d.writes [.erase (p.imgStart + o)]) ∨ p.imgId = sblImgId := by
  by_cases hid : p.imgId = sblImgId
  · exact .inr hid
  have hno : ∀ w ∈ [Write.erase (p.imgStart + o)], ∀ x, x ∉ w.programmed := by
    intro w hw x
    rw [List.mem_singleton] at hw
    rw [hw]
    exact not_mem_empty
  have hw : Written (d.writes [.erase (p.imgStart + o)]).mem p b := by
    have h := hl.written.eraseIn 4096 ho
    rw [eraseIn, if_neg hid] at h
    exact h
  have hlaid : ∀ hi', (∀ x, p.imgStart + b.length ≤ x → x < p.imgStart + hi' → x < p.imgStart + p.imgSize →
      Vacant P (d.log ++ [.erase (p.imgStart + o)]) x) →
      Laid d₀ P n p b hi' (d.writes [.erase (p.imgStart + o)]) := by
    intro hi' hfr
    refine ⟨writes_ext hl.ext _, ?_, hw, hl.lt, hl.aligned, hl.fits, ?_, fun _ => hfr⟩
    · rw [Dev.writes_log, List.length_append]
      exact Nat.le_add_right_of_le hl.since
    · intro _ x hx
      rw [Dev.writes_log, ProgrammedSince.append hl.since] at hx
      rcases hx with hx | ⟨w, hw', hx⟩
      · exact hl.programmed hid x hx
      · exact absurd hx (hno w hw' x)
  refine .inl ⟨inOrder_erase ?_, hlaid _ ?_, hlaid _ ?_⟩
  · intro x hx hp
    have := hl.programmed hid x hp
    rw [Range.mem_mk] at hx
    omega
  · intro x hx hx' hsz
    by_cases hlo : x < p.imgStart + o
    · exact (hl.vacant hid x hx (by omega) hsz).append fun w hw => hno w hw x
    · exact vacant_erased (hn _ hl.since) (Range.mem_mk.mpr (by omega))
  · intro x hx hx' hsz
    exact (hl.vacant hid x hx hx' hsz).append fun w hw => hno w hw x

/-- `fw_upgrade_erase_partition` of one block behind what is written. -/
theorem Laid.erase (hl : Laid d₀ P n p b hi s.fu.dev) (hn : ∀ j, n ≤ j → P j) (hk : s.cxt.partitionHdl = some k)
    (hc : (s.fu.handles k).At p) (ho : o % 4096 = 0) (hbo : b.length ≤ o) (hoh : o ≤ hi)
    (hlt : p.imgId ≠ sblImgId → p.imgStart + o < 2 ^ 32) :
    ∃ r ws, erasePartition o 4096 s = (r, { s with fu := s.fu.writes ws }) ∧ AllInOrder P n s.fu.dev.log ws ∧
      Laid d₀ P n p b hi (s.fu.dev.writes ws) ∧ (r = .ok () → Laid d₀ P n p b (o + 4096) (s.fu.dev.writes ws)) := by
  rcases erasePartition_cases k o 4096 s.fu with ⟨r, heq, hr⟩ | ⟨-, hid, -, -, -, -, -, heq⟩
  · obtain ⟨r', hr', hiff⟩ := erasePartition_eq hk heq
    refine ⟨r', [], by rw [hr', Fu.writes, Dev.writes_nil], allInOrder_nil, by rwa [Dev.writes_nil], fun hok => ?_⟩
    have hsbl : p.imgId = sblImgId := hc.imgId ▸ (hr (hiff.mp hok)).2
    rw [Dev.writes_nil]
    exact { hl with vacant := fun hid => absurd hsbl hid }
  · rw [hc.imgId] at hid
    obtain ⟨r', hr', -⟩ := erasePartition_eq hk heq
    have haddr : u32 ((s.fu.handles k).imgStart + o) / 4096 * 4096 = p.imgStart + o := by
      rw [hc.addr, u32_of_lt (hlt hid)]
      have := (hl.aligned hid).1
      omega
    have hws : eraseBlocks (u32 ((s.fu.handles k).imgStart + o) / 4096) (4096 / 4096) = [.erase (p.imgStart + o)] := by
      rw [← haddr]
      simp [eraseBlocks]
    rw [hws] at hr'
    rcases hl.eraseBlock hn hbo hoh with ⟨h₁, h₂, h₃⟩ | hsbl
    · exact ⟨r', _, hr', h₁, h₃, fun _ => h₂⟩
    · exact absurd hsbl hid

/-- `fw_upgrade_write_partition` of the next bytes, all of them vacant. -/
theorem Laid.write (hl : Laid d₀ P n p b hi s.fu.dev) (hP : ∀ j, P j → d₀.log.length ≤ j)
    (hrram : ∀ a m, m ≤ fwUpgradeBufSize → s.fu.dev.rramOk a m = true → a + m < 2 ^ 32)
    (hk : s.cxt.partitionHdl = some k) (hc : (s.fu.handles k).At p) {d : Bytes} (hne : d ≠ [])
    (hd : d.length ≤ fwUpgradeBufSize) (hhi : b.length + d.length ≤ hi) :
    ∃ r ws, writePartition b.length d s = (r, { s with fu := s.fu.writes ws }) ∧ AllInOrder P n s.fu.dev.log ws ∧
      (r = .ok () → Laid d₀ P n p (b ++ d) hi (s.fu.dev.writes ws)) := by
  have haddr : u32 ((s.fu.handles k).imgStart + b.length) = p.imgStart + b.length := by
    rw [hc.addr, u32_of_lt hl.lt]
  have happ : b ++ d ≠ [] := by simp [hne]
  rcases writePartition_cases k b.length d s.fu with ⟨e, heq⟩ | ⟨hpar, ⟨hid, hin, heq⟩ | ⟨hid, hok, heq⟩⟩
  · obtain ⟨r', hr', hiff⟩ := writePartition_eq hk heq
    refine ⟨r', [], by rw [hr', Fu.writes, Dev.writes_nil], allInOrder_nil, fun hr => ?_⟩
    cases hiff.mp hr
  · rw [hc.imgId] at hid
    rw [haddr] at heq hin
    obtain ⟨r', hr', -⟩ := writePartition_eq hk heq
    simp only [fwUpgradeBufSize] at hd
    -- the driver's checks leave no room for a wrap
    have hend : p.imgStart + b.length + d.length ≤ flashEnd s.fu.dev ∧
        u32 (p.imgStart + b.length + d.length) = p.imgStart + b.length + d.length := by
      have h₁ := hin.2.1
      have h₂ := hin.2.2
      have h₃ := hl.lt
      rw [flashEnd]
      simp only [u32] at *
      omega
    have hsize : p.imgStart + b.length + d.length ≤ p.imgStart + p.imgSize := by
      have h := hpar.2.2
      rw [haddr, hend.2, hc.imgSize, hc.addr] at h
      exact h.trans (Nat.mod_le _ _)
    have hvacant : ∀ x ∈ (⟨p.imgStart + b.length, d.length⟩ : Range), Vacant P s.fu.dev.log x := by
      intro x hx
      rw [Range.mem_mk] at hx
      exact hl.vacant hid x (by omega) (by omega) (by omega)
    refine ⟨r', _, hr', inOrder_pages _ _ _ _ hvacant, fun _ => ?_⟩
    refine ⟨writes_ext hl.ext _, ?_, ?_, ?_, hl.aligned, ?_, ?_, ?_⟩
    · rw [Dev.writes_log, List.length_append]
      exact Nat.le_add_right_of_le hl.since
    · have hw := hl.written.writeIn (d := d) (fun _ x hx hx' =>
        (hvacant x (Range.mem_mk.mpr (by omega))).blank hl.ext hP)
      rw [writeIn, if_neg hid] at hw
      rw [Dev.writes_mem, replay_pages _ _ _ _ le_rfl]
      exact hw
    · have := flashEnd_lt s.fu.dev
      rw [List.length_append]
      omega
    · intro _ _
      rw [List.length_append]
      have := hend.1
      rw [flashEnd, Dev.writes_density, ← flashEnd]
      omega
    · intro _ x hx
      rw [Dev.writes_log, ProgrammedSince.append hl.since] at hx
      rw [List.length_append]
      rcases hx with hx | ⟨w, hw, hx⟩
      · have := hl.programmed hid x hx
        omega
      · have := pages_programmed hw hx
        omega
    · intro _ x hx hx' hsz
      rw [List.length_append] at hx
      refine (hl.vacant hid x (by omega) hx' hsz).append fun w hw hxw => ?_
      have := pages_programmed hw hxw
      omega
  · rw [hc.imgId] at hid
    rw [haddr] at heq hok
    obtain ⟨r', hr', -⟩ := writePartition_eq hk heq
    refine ⟨r', _, hr', inOrder_rram _ _, fun _ => ?_⟩
    refine ⟨writes_ext hl.ext _, ?_, ?_, ?_, hl.aligned, fun h => absurd hid h, fun h => absurd hid h,
      fun h => absurd hid h⟩
    · rw [Dev.writes_log, List.length_append]
      exact Nat.le_add_right_of_le hl.since
    · have hw := hl.written.writeIn (d := d) (fun h => absurd hid h)
      rw [writeIn, if_pos hid] at hw
      exact hw
    · have := hrram _ _ hd hok
      rw [List.length_append]
      omega

/-! ### A piece of an image -/

/-- An image is open: the bytes `b` of it are written, more are to come, and the block they go to is erased. -/
structure ImageOpen (d₀ : Dev) (P : ℕ → Prop) (n : ℕ) (p : Spot) (b : Bytes) (s : Session) : Prop where
  count : s.cxt.imageWrtCount = b.length
  unfinished : b.length < s.cxt.imageWrtLength
  length_lt : s.cxt.imageWrtLength < 2 ^ 32
  laid : Laid d₀ P n p b ((b.length / 4096 + 1) * 4096) s.fu.dev

/-- The session's handle is that of the partition at `p`. -/
def Session.Holds (s : Session) (p : Spot) : Prop := ∃ k, s.cxt.partitionHdl = some k ∧ (s.fu.handles k).At p

theorem eraseAhead_laid {m : ℕ} (hl : Laid d₀ P n p b ((b.length / 4096 + 1) * 4096) s.fu.dev) (hn : ∀ j, n ≤ j → P j)
    (hh : s.Holds p) (hcount : s.cxt.imageWrtCount = b.length) (h0 : 0 < m) (hm : m ≤ fwUpgradeBufSize)
    (hlt : b.length + m < 2 ^ 32) :
    ∃ r ws, eraseAhead m s = (r, { s with fu := s.fu.writes ws }) ∧ AllInOrder P n s.fu.dev.log ws ∧
      (r = .ok () → Laid d₀ P n p b (blockCeil (b.length + m)) (s.fu.dev.writes ws)) := by
  obtain ⟨k, hk, hc⟩ := hh
  rw [eraseAhead, Cmd.bind_ok (Cmd.gets_apply _ _), hcount]
  simp only [u32_of_lt hlt, fwUpgradeBufSize] at *
  rw [u32sub_of_le hlt (by omega)]
  by_cases hcross : b.length / 4096 ≠ (b.length + m - 1) / 4096
  · rw [if_pos hcross, ahead_one h0 hm hcross, u32sub_of_le (by omega) (by omega), Nat.add_sub_add_left,
      show u32 ((2 - 1) * 4096) = 4096 from rfl, u32_of_lt (x := (b.length / 4096 + 1) * 4096) (by omega)]
    obtain ⟨r, ws, heq, hord, -, hok⟩ := hl.erase (o := (b.length / 4096 + 1) * 4096) hn hk hc (by omega) (by omega)
      (le_refl _) (fun hid => by
        have hne : b ≠ [] := by
          rintro rfl
          simp only [List.length_nil] at hcross
          omega
        have h₁ := hl.fits hid hne
        have h₂ := flashEnd_lt s.fu.dev
        have h₃ := flashEnd_mod s.fu.dev
        have h₄ := (hl.aligned hid).1
        omega)
    refine ⟨r, ws, heq, hord, fun hr => (hok hr).mono ?_⟩
    rw [blockCeil]
    omega
  · rw [if_neg hcross]
    refine ⟨.ok (), [], by rw [Fu.writes, Dev.writes_nil]; rfl, allInOrder_nil, fun _ => ?_⟩
    rw [Dev.writes_nil]
    exact hl.mono (ahead_none h0 (not_not.mp hcross))

/-- A piece of the buffer is written behind the ones before it. -/
theorem writeImage_laid {m : ℕ} (hO : ImageOpen d₀ P n p b s) (hP : ∀ j, P j → d₀.log.length ≤ j)
    (hn : ∀ j, n ≤ j → P j)
    (hrram : ∀ a m, m ≤ fwUpgradeBufSize → s.fu.dev.rramOk a m = true → a + m < 2 ^ 32) (hh : s.Holds p)
    (h0 : 0 < m) (hbuf : s.cxt.buffer.length ≤ fwUpgradeBufSize) (hm : m ≤ s.cxt.buffer.length - s.cxt.bufOffset)
    (hlen : b.length + m ≤ s.cxt.imageWrtLength) :
    ∃ r ws s', writeImage m s = (r, s') ∧ s'.fu.dev = s.fu.dev.writes ws ∧ AllInOrder P n s.fu.dev.log ws ∧
      (r = .ok () → s' = { s with
          fu := s.fu.writes ws
          cxt := { s.cxt with
            digest := s.cxt.digest ++ (s.cxt.buffer.drop s.cxt.bufOffset).take m
            bufOffset := s.cxt.bufOffset + m
            fileReadCount := u32 (s.cxt.fileReadCount + m)
            imageWrtCount := b.length + m } } ∧
        Laid d₀ P n p (b ++ (s.cxt.buffer.drop s.cxt.bufOffset).take m) (blockCeil (b.length + m)) s'.fu.dev) := by
  have hlt := hO.length_lt
  have hpiece : ((s.cxt.buffer.drop s.cxt.bufOffset).take m).length = m := by
    rw [List.length_take, List.length_drop]
    omega
  set d := (s.cxt.buffer.drop s.cxt.bufOffset).take m with hd
  rw [writeImage, Cmd.bind_ok (Cmd.gets_apply _ _), Cmd.bind_ok (Cmd.modify_apply _ _), ← hd]
  set s₁ : Session := s.setCxt fun c => { c with digest := c.digest ++ d } with hs₁
  obtain ⟨k, hk, hc⟩ := hh
  obtain ⟨r₁, ws₁, heq₁, hord₁, hok₁⟩ := eraseAhead_laid (s := s₁) hO.laid hn ⟨k, hk, hc⟩ hO.count h0 (by omega) (by omega)
  rcases r₁ with e | u
  · exact ⟨_, ws₁, _, Cmd.bind_error heq₁, rfl, hord₁, fun h => by cases h⟩
  rw [Cmd.bind_ok heq₁, Cmd.bind_ok (Cmd.gets_apply _ _)]
  have hcount : ({ s₁ with fu := s₁.fu.writes ws₁ } : Session).cxt.imageWrtCount = b.length := hO.count
  rw [hcount]
  obtain ⟨r₂, ws₂, heq₂, hord₂, hok₂⟩ := Laid.write (s := { s₁ with fu := s₁.fu.writes ws₁ }) (hok₁ rfl) hP hrram hk hc
    (d := d) (by rw [← List.length_pos_iff]; omega) (by omega) (by rw [blockCeil]; omega)
  have hall : AllInOrder P n s.fu.dev.log (ws₁ ++ ws₂) := allInOrder_append.mpr ⟨hord₁, hord₂⟩
  have hdev : (s₁.fu.writes ws₁).writes ws₂ = s.fu.writes (ws₁ ++ ws₂) := Fu.writes_writes _ _ _
  rcases r₂ with e | u
  · refine ⟨_, ws₁ ++ ws₂, _, Cmd.bind_error heq₂, ?_, hall, fun h => by cases h⟩
    rw [Dev.writes_append]
    rfl
  · rw [Cmd.bind_ok heq₂, Cmd.modify_apply]
    refine ⟨_, ws₁ ++ ws₂, _, rfl, ?_, hall, fun _ => ⟨?_, hok₂ rfl⟩⟩
    · rw [Dev.writes_append]
      rfl
    · have hu : u32 (s.cxt.imageWrtCount + m) = b.length + m := by
        rw [hO.count]
        exact u32_of_lt (by omega)
      rw [← hdev, ← hu]
      rfl

/-- The block of the next write is erased, also when the last one ended a block. -/
theorem eraseNext_laid (hl : Laid d₀ P n p b (blockCeil b.length) s.fu.dev) (hn : ∀ j, n ≤ j → P j) (hh : s.Holds p)
    (hcount : s.cxt.imageWrtCount = b.length) (hpos : 0 < s.cxt.imageWrtLength) :
    ∃ r ws, eraseNext s = (r, { s with fu := s.fu.writes ws }) ∧ AllInOrder P n s.fu.dev.log ws ∧
      (r = .ok () → Laid d₀ P n p b ((b.length / 4096 + 1) * 4096) (s.fu.dev.writes ws)) := by
  obtain ⟨k, hk, hc⟩ := hh
  rw [eraseNext]
  by_cases hmod : s.cxt.imageWrtCount % 4096 = 0
  · rw [Cmd.when_pos ⟨hmod, hpos⟩, Cmd.bind_ok (Cmd.gets_apply _ _), hcount]
    rw [hcount] at hmod
    obtain ⟨r, ws, heq, hord, -, hok⟩ := hl.erase (o := b.length) hn hk hc hmod (le_refl _) (le_blockCeil _) (fun _ => hl.lt)
    exact ⟨r, ws, heq, hord, fun hr => (hok hr).mono (next_block hmod)⟩
  · rw [Cmd.when_neg fun h => hmod h.1]
    refine ⟨.ok (), [], by rw [Fu.writes, Dev.writes_nil], allInOrder_nil, fun _ => ?_⟩
    rw [Dev.writes_nil]
    exact hl.mono (in_block (hcount ▸ hmod))

/-- Between two sessions the images, the buffer and the kind of file are the same. -/
structure SameFile (c c' : Cxt) : Prop where
  imageHdr : c'.imageHdr = c.imageHdr
  buffer : c'.buffer = c.buffer
  isFirst : c'.isFirst = c.isFirst
  format : c'.format = c.format

theorem SameFile.trans {c₁ c₂ c₃ : Cxt} (h : SameFile c₁ c₂) (h' : SameFile c₂ c₃) : SameFile c₁ c₃ :=
  ⟨h'.imageHdr.trans h.imageHdr, h'.buffer.trans h.buffer, h'.isFirst.trans h.isFirst, h'.format.trans h.format⟩

/-- The end of an image closes it and writes nothing; only an all-in-one file that goes on keeps the state. -/
theorem finishImage_ends (env : Env) (h : ImageHdr) (s : Session) : (finishImage env h s).2.fu.dev = s.fu.dev ∧
    ∀ g, (finishImage env h s).1 = .ok g → (finishImage env h s).2.cxt.imageWrtLength = 0 ∧
      SameFile s.cxt (finishImage env h s).2.cxt ∧
      (g = false → s.cxt.format ≠ formatPartialUpgrade → (finishImage env h s).2.cxt.state = s.cxt.state) := by
  rw [finishImage, Cmd.bind_apply, verifyImageHash]
  by_cases hhash : h.hash = env.sha256 (s.cxt.digest ++ List.replicate (s.cxt.hashPad h) 0xFF)
  swap
  · rw [if_neg hhash]
    exact ⟨rfl, fun g hg => by cases hg⟩
  rw [if_pos hhash]
  simp only
  set s₁ : Session := { s with verified := (s.cxt.imageIndex, s.cxt.digest) :: s.verified } with hs₁
  rw [closeImage, Cmd.bind_ok (Cmd.modify_apply _ _), Cmd.bind_ok (Cmd.gets_apply _ _)]
  have hcxt : s₁.freePartitionHdl.cxt = { s.cxt with partitionHdl := none } := Session.freePartitionHdl_cxt s₁
  have hdev : s₁.freePartitionHdl.fu.dev = s.fu.dev := s₁.freePartitionHdl_dev
  simp only [Session.setCxt, hcxt]
  by_cases hf : s.cxt.format = formatPartialUpgrade
  · simp only [if_pos hf]
    exact ⟨hdev, fun g _ => ⟨rfl, ⟨rfl, rfl, rfl, rfl⟩, fun _ hne => absurd hf hne⟩⟩
  · simp only [if_neg hf]
    by_cases ht : s.cxt.totalImages ≤ s.cxt.imageIndex + 1
    · rw [if_pos ht]
      refine ⟨hdev, fun g hg => ⟨rfl, ⟨rfl, rfl, rfl, rfl⟩, fun hgf => ?_⟩⟩
      rw [hgf] at hg
      cases hg
    · rw [if_neg ht]
      exact ⟨hdev, fun g _ => ⟨rfl, ⟨rfl, rfl, rfl, rfl⟩, fun _ _ => rfl⟩⟩

/-- The bytes of the buffer that go to the open image. -/
def Cxt.piece (c : Cxt) : Bytes :=
  match c.writeLen with
  | .ok m => (c.buffer.drop (if c.format = formatPartialUpgrade then 0 else c.bufOffset)).take m
  | .error _ => []

/-- What a pass that ends without an error leaves of the image it has written `b` of. -/
structure PieceEnd (d₀ : Dev) (P : ℕ → Prop) (n : ℕ) (p : Spot) (b : Bytes) (s : Session) (g : Bool) (s' : Session) :
    Prop where
  same : SameFile s.cxt s'.cxt
  stay : g = true → s'.cxt.state = .processImage
  image : s'.cxt.imageWrtLength = 0 ∧ Written s'.fu.dev.mem p b ∨
    ImageOpen d₀ P n p b s' ∧ s'.Holds p ∧ s'.cxt.state = .processImage ∧ s'.cxt.imageIndex = s.cxt.imageIndex

/-- A pass with an open image: its writes are in order. -/
theorem receivePiece_laid (env : Env) (h : ImageHdr) (hO : ImageOpen d₀ P n p b s) (hP : ∀ j, P j → d₀.log.length ≤ j)
    (hn : ∀ j, n ≤ j → P j)
    (hrram : ∀ a m, m ≤ fwUpgradeBufSize → s.fu.dev.rramOk a m = true → a + m < 2 ^ 32) (hh : s.Holds p)
    (hbuf : s.cxt.buffer ≠ []) (hbl : s.cxt.buffer.length ≤ fwUpgradeBufSize)
    (hoff : s.cxt.format ≠ formatPartialUpgrade → s.cxt.bufOffset < s.cxt.buffer.length)
    (hst : s.cxt.state = .processImage) :
    ∃ ws, (receivePiece env h s).2.fu.dev = s.fu.dev.writes ws ∧ AllInOrder P n s.fu.dev.log ws ∧
      ∀ g, (receivePiece env h s).1 = .ok g → PieceEnd d₀ P n p (b ++ s.cxt.piece) s g (receivePiece env h s).2 := by
  rw [receivePiece, Cmd.bind_ok (Cmd.gets_apply _ _), Cxt.piece]
  rcases hw : s.cxt.writeLen with e | m
  · exact ⟨[], (Dev.writes_nil _).symm, allInOrder_nil, fun g hg => by cases hg⟩
  have hcount := hO.count
  have hunf := hO.unfinished
  obtain ⟨h0, hlen, hm⟩ := writeLen_bounds hw (by omega) hO.length_lt hbuf fun hf => ⟨hoff hf, by omega⟩
  rw [hcount] at hlen
  simp only
  rw [Cmd.bind_ok (Cmd.modify_apply _ _)]
  set o := if s.cxt.format = formatPartialUpgrade then 0 else s.cxt.bufOffset with ho
  set s₁ : Session := s.setCxt fun c =>
    { c with bufOffset := if c.format = formatPartialUpgrade then 0 else c.bufOffset } with hs₁
  have hO₁ : ImageOpen d₀ P n p b s₁ := ⟨hO.count, hO.unfinished, hO.length_lt, hO.laid⟩
  obtain ⟨r₁, ws₁, s₂, heq₁, hdev₁, hord₁, hok₁⟩ := writeImage_laid hO₁ hP hn hrram hh h0 hbl hm hlen
  have hpiece : ((s.cxt.buffer.drop o).take m).length = m := by
    rw [List.length_take, List.length_drop]
    omega
  rcases r₁ with e | u
  · exact ⟨ws₁, by rw [Cmd.bind_error heq₁, hdev₁]; rfl, hord₁, fun g hg => by rw [Cmd.bind_error heq₁] at hg; cases hg⟩
  rw [Cmd.bind_ok heq₁]
  obtain ⟨hs₂, hl₂⟩ := hok₁ rfl
  rw [show (s₁.cxt.buffer.drop s₁.cxt.bufOffset).take m = (s.cxt.buffer.drop o).take m from rfl] at hl₂
  have hb' : (b ++ (s.cxt.buffer.drop o).take m).length = b.length + m := by rw [List.length_append, hpiece]
  have hlen₂ : s₂.cxt.imageWrtLength = s.cxt.imageWrtLength := by rw [hs₂]; rfl
  have hcount₂ : s₂.cxt.imageWrtCount = (b ++ (s.cxt.buffer.drop o).take m).length := by rw [hs₂, hb']
  have hsame₂ : SameFile s.cxt s₂.cxt := by rw [hs₂]; exact ⟨rfl, rfl, rfl, rfl⟩
  have hst₂ : s₂.cxt.state = .processImage := by rw [hs₂]; exact hst
  have hidx₂ : s₂.cxt.imageIndex = s.cxt.imageIndex := by rw [hs₂]; rfl
  have hh₂ : s₂.Holds p := by
    obtain ⟨k, hk, hc⟩ := hh
    exact ⟨k, by rw [hs₂]; exact hk, by rw [hs₂]; exact hc⟩
  by_cases hfin : s₂.cxt.imageWrtLength ≤ s₂.cxt.imageWrtCount
  · -- the image is complete
    obtain ⟨hdev₃, hends⟩ := finishImage_ends env h s₂
    have hif : finishIfWritten env h s₂ = finishImage env h s₂ := if_pos hfin
    rcases hr₃ : finishImage env h s₂ with ⟨e | last, s₃⟩ <;> rw [hr₃] at hdev₃ hends
    · rw [Cmd.bind_error (hif.trans hr₃)]
      exact ⟨ws₁, by rw [hdev₃, hdev₁]; rfl, hord₁, fun g hg => by cases hg⟩
    rw [Cmd.bind_ok (hif.trans hr₃)]
    obtain ⟨hzero, hsame₃, hstay⟩ := hends last rfl
    have hwr : Written s₃.fu.dev.mem p (b ++ (s.cxt.buffer.drop o).take m) := by rw [hdev₃]; exact hl₂.written
    cases last with
    | true =>
      refine ⟨ws₁, by rw [if_pos rfl]; exact hdev₃.trans hdev₁, hord₁, fun g hg => ?_⟩
      rw [if_pos rfl] at hg ⊢
      cases hg
      exact ⟨hsame₂.trans hsame₃, fun hgt => by simp at hgt, .inl ⟨hzero, hwr⟩⟩
    | false =>
      have hnext : eraseNext s₃ = (.ok (), s₃) := by
        rw [eraseNext, Cmd.when_neg]
        rintro ⟨-, hpos⟩
        rw [hzero] at hpos
        omega
      rw [if_neg (by simp), Cmd.bind_ok hnext, Cmd.gets_apply]
      refine ⟨ws₁, hdev₃.trans hdev₁, hord₁, fun g hg => ⟨hsame₂.trans hsame₃, fun hgt => ?_, .inl ⟨hzero, hwr⟩⟩⟩
      simp only [Except.ok.injEq] at hg
      rw [hgt, decide_eq_true_eq, hsame₃.format] at hg
      exact (hstay rfl hg).trans hst₂
  · -- more is to come
    have hif : finishIfWritten env h s₂ = (.ok false, s₂) := if_neg hfin
    rw [Cmd.bind_ok hif, if_neg (by simp)]
    obtain ⟨r₄, ws₄, heq₄, hord₄, hok₄⟩ := eraseNext_laid (s := s₂) (b := b ++ (s.cxt.buffer.drop o).take m)
      (by rw [hb']; exact hl₂) hn hh₂ hcount₂ (by omega)
    have hall : AllInOrder P n s.fu.dev.log (ws₁ ++ ws₄) := allInOrder_append.mpr ⟨hord₁, by
      rw [hdev₁] at hord₄
      exact hord₄⟩
    have hdev₄ : (s₂.fu.writes ws₄).dev = s.fu.dev.writes (ws₁ ++ ws₄) := by
      rw [Dev.writes_append, Fu.writes_dev, hdev₁]
      rfl
    rcases r₄ with e | u
    · rw [Cmd.bind_error heq₄]
      exact ⟨ws₁ ++ ws₄, hdev₄, hall, fun g hg => by cases hg⟩
    rw [Cmd.bind_ok heq₄, Cmd.gets_apply]
    refine ⟨ws₁ ++ ws₄, hdev₄, hall, fun g _ => ⟨hsame₂, fun _ => hst₂, .inr ⟨⟨hcount₂, ?_, ?_, hok₄ rfl⟩, hh₂, hst₂, hidx₂⟩⟩⟩
    · show _ < s₂.cxt.imageWrtLength
      omega
    · show s₂.cxt.imageWrtLength < _
      rw [hlen₂]
      exact hO.length_lt

/-! ### A new image -/

/-- The place of FS2 in the active FWD. -/
def Session.activeFs2 (s : Session) : Range := partitionRange (s.fu.dev.mem.fwd s.activeFwd) fs2ImgId

/-- Where the partition of the image `h` is created. -/
def Session.imageSpot (s : Session) (h : ImageHdr) : Spot :=
  if h.imageId = fs1ImgId then ⟨h.imageId, s.activeFs2.start, s.activeFs2.size⟩
  else ⟨h.imageId, u32 (if h.imageId = sblImgId then s.cxt.trialSblStart else s.cxt.trialMemStart), h.diskSize⟩

@[simp] theorem Session.imageSpot_imgId (s : Session) (h : ImageHdr) : (s.imageSpot h).imgId = h.imageId := by
  rw [Session.imageSpot]
  split <;> rfl

/-- An entry of a FWD lies in one page. -/
theorem pages_entry {a : ℕ} {d : Bytes} (ha : a % 16 = 0) (hd : d.length = 16) : pages 16 a d = [.program a d] := by
  match d, hd with
  | x :: xs, hd =>
    have hk : (if a % 256 ≠ 0 then min (256 - a % 256) (x :: xs).length else min 256 (x :: xs).length) = 16 := by
      rw [hd]
      split <;> omega
    rw [pages, hk, List.take_of_length_le (by omega), List.drop_eq_nil_of_le (by omega)]
    rfl

/-- The partition is created: the FWD has its entry, and nothing is programmed in it since. -/
theorem create_laid (P : ℕ → Prop) (p : Spot) (id version start size hi : ℕ) (hext : ∃ ws, s.fu.dev = d₀.writes ws) (hid : id = p.imgId)
    (hstart : u32 start = p.imgStart) (hsize : size = p.imgSize)
    (hvac : id ≠ sblImgId → p.imgStart % 4096 = 0 → ∀ a e, s.cxt.trialFwdIdx * 4096 ≤ a →
      a + e.length ≤ s.cxt.trialFwdIdx * 4096 + 4096 → ∀ x, p.imgStart ≤ x → x < p.imgStart + hi → x < p.imgStart + p.imgSize →
        Vacant P (s.fu.dev.log ++ [.program a e]) x) :
    createPartition id version start size s = (.error .flashCreatePartition, s) ∨
    ∃ a k fu', createPartition id version start size s =
        (.ok (), { s with fu := fu', cxt := { s.cxt with partitionHdl := some k } }) ∧
      fu'.dev = s.fu.dev.writes [.program a (newEntry id version start size).encode] ∧ (fu'.handles k).At p ∧
      Laid d₀ P (s.fu.dev.log.length + 1) p [] hi fu'.dev := by
  rcases create_cases id version start size s with heq | ⟨k, -, hal, -, hfree, heq⟩
  · exact .inl heq
  set e := (newEntry id version start size).encode with he
  set a := s.cxt.trialFwdIdx * 4096 + 32 + freeEntry (s.fu.dev.mem.fwd s.cxt.trialFwdIdx) * 16 with ha
  have hel : e.length = 16 := rfl
  rw [pages_entry (by omega) hel] at heq
  refine .inr ⟨a, k, _, heq, rfl, ⟨by rw [Fu.setHandle_same]; exact hid, by rw [Fu.setHandle_same]; exact hstart,
    by rw [Fu.setHandle_same]; exact hsize⟩, ?_⟩
  have halp : p.imgId ≠ sblImgId → p.imgStart % 4096 = 0 ∧ p.imgSize % 4096 = 0 := by
    intro h
    obtain ⟨h₁, h₂⟩ := hal (hid ▸ h)
    rw [← hstart, ← hsize]
    refine ⟨?_, h₂⟩
    rw [u32]
    omega
  have hlog : ((s.fu.writes [.program a e]).setHandle k
      ⟨1, s.cxt.trialFwdIdx, freeEntry (s.fu.dev.mem.fwd s.cxt.trialFwdIdx), id, version, start, size⟩).dev.log =
      s.fu.dev.log ++ [.program a e] := rfl
  refine ⟨writes_ext hext _, ?_, ?_, ?_, halp, fun _ h => absurd rfl h, ?_, ?_⟩
  · rw [hlog, List.length_append]
    exact le_rfl
  · rw [Written]
    rfl
  · rw [← hstart]
    exact u32_lt _
  · intro _ x hx
    rw [hlog, ProgrammedSince, List.drop_append, List.drop_of_length_le (by omega)] at hx
    simp at hx
  · intro h x hx hx' hsz
    rw [hlog]
    simp only [maxFwImageEntries] at hfree
    exact hvac (hid ▸ h) (halp h).1 a e (by omega) (by omega) x hx hx' hsz

/-- The active FS2 is where its handle says. -/
theorem activeFs2_eq {i : ℕ} {en : ImageEntry} (h : findEntry (s.fu.dev.mem.fwd s.activeFwd) fs2ImgId = some (i, en)) :
    s.activeFs2 = ⟨(clientOf s.activeFwd i en).imgStart, (clientOf s.activeFwd i en).imgSize⟩ := by
  rw [Session.activeFs2, partitionRange, h]
  rfl

/-- What opening the image `h` does: it writes the entry first and then in order, and if it succeeds nothing of the
    image is written and it is vacant as far as `hi`. -/
structure OpenEnd (d₀ : Dev) (P : ℕ → Prop) (h : ImageHdr) (hi : ℕ) (s : Session) (r : Except FuStatus Unit × Session) : Prop where
  writes : ∃ ws, r.2.fu.dev = s.fu.dev.writes ws ∧
    (∀ w, ws.head? = some w → ∃ a start, u32 start = (s.imageSpot h).imgStart ∧
      w = .program a (newEntry h.imageId h.version start (s.imageSpot h).imgSize).encode) ∧
    AllInOrder P (s.fu.dev.log.length + 1) (s.fu.dev.log ++ ws.take 1) (ws.drop 1)
  opened : r.1 = .ok () → r.2.Holds (s.imageSpot h) ∧
    Laid d₀ P (s.fu.dev.log.length + 1) (s.imageSpot h) [] hi r.2.fu.dev ∧
    r.2.cxt = { s.cxt with imageWrtCount := 0, imageWrtLength := h.imageLength, partitionHdl := r.2.cxt.partitionHdl }

theorem OpenEnd.error {h : ImageHdr} {s' : Session} (e : FuStatus) (hd : s'.fu.dev = s.fu.dev) :
    OpenEnd d₀ P h hi s (.error e, s') := by
  refine ⟨⟨[], by rw [hd, Dev.writes_nil], ?_, allInOrder_nil⟩, ?_⟩
  · intro w hw
    cases hw
  · intro hr
    cases hr

/-- FS1 takes the place of the active FS2. -/
theorem createFs1_laid {h : ImageHdr} (hext : ∃ ws, s.fu.dev = d₀.writes ws) (hfs1 : h.imageId = fs1ImgId)
    (hhi : hi ≤ 4096)
    (hvac : ∀ x, s.activeFs2.start ≤ x → x < s.activeFs2.start + hi → x < s.activeFs2.start + s.activeFs2.size →
      s.activeFs2.start ≠ s.cxt.trialFwdIdx * 4096 ∧ Vacant P s.fu.dev.log x) :
    OpenEnd d₀ P h hi s
      (createFs1 h (s.setCxt fun c => { c with imageWrtCount := 0, imageWrtLength := h.imageLength })) := by
  set s₁ : Session := s.setCxt fun c => { c with imageWrtCount := 0, imageWrtLength := h.imageLength } with hs₁
  have hpe : s.imageSpot h = ⟨h.imageId, s.activeFs2.start, s.activeFs2.size⟩ := by rw [Session.imageSpot, if_pos hfs1]
  rw [createFs1]
  rcases locatePartition_cases fs2ImgId .flashImageNotFound s₁ with heq | ⟨k, i, en, -, -, -, hfind, heq⟩
  · rw [Cmd.bind_error heq]
    exact .error _ rfl
  rw [Cmd.bind_ok heq, Cmd.ensure_bind]
  split
  swap
  · exact .error _ rfl
  have hplace := activeFs2_eq (s := s) hfind
  set c := clientOf s₁.activeFwd i en with hc
  have hst : s.activeFs2.start = c.imgStart := by rw [hplace]; rfl
  have hsz : s.activeFs2.size = c.imgSize := by rw [hplace]; rfl
  have hlt : u32 c.imgStart = c.imgStart := by
    refine u32_of_lt ?_
    simp only [hc, clientOf, (findEntry_id hfind).1]
    exact u32_lt _
  rw [hst, hsz] at hpe hvac
  rcases create_laid (s := { s₁ with fu := (s₁.fu.setHandle k c).freeHandle k, cxt := { s₁.cxt with partitionHdl := none } })
    P (s.imageSpot h) h.imageId h.version c.imgStart c.imgSize hi hext (s.imageSpot_imgId h).symm (by rw [hlt, hpe]) (by rw [hpe])
    (fun _ hal a e ha ha' x hx hx' hxs => by
      rw [hpe] at hal hx hx' hxs
      obtain ⟨hne, hv⟩ := hvac x hx hx' hxs
      refine hv.append fun w hw hxw => ?_
      rw [List.mem_singleton] at hw
      rw [hw, Write.programmed, Range.mem_mk] at hxw
      have ha₁ : s.cxt.trialFwdIdx * 4096 ≤ a := ha
      have ha₂ : a + e.length ≤ s.cxt.trialFwdIdx * 4096 + 4096 := ha'
      simp only at hal hx hx'
      omega) with heq' | ⟨a, k', fu', heq', hdev, hat, hlaid⟩
  · rw [heq']
    exact .error _ rfl
  · rw [heq']
    refine ⟨⟨_, hdev, ?_, allInOrder_nil⟩, fun _ => ⟨⟨k', rfl, hat⟩, hlaid, rfl⟩⟩
    intro w hw
    simp only [List.head?_cons, Option.some.injEq] at hw
    exact ⟨a, c.imgStart, by rw [hlt, hpe], by rw [← hw, hpe]⟩

/-- The first writes of an image. FS1 is not erased here, so it is vacant as far as it was before. -/
theorem openImage_laid (h : ImageHdr) (hext : ∃ ws, s.fu.dev = d₀.writes ws)
    (hn : ∀ j, s.fu.dev.log.length + 1 ≤ j → P j) (hhi : hi ≤ 4096)
    (hfs : h.imageId = fs1ImgId → ∀ x, s.activeFs2.start ≤ x → x < s.activeFs2.start + hi →
      x < s.activeFs2.start + s.activeFs2.size →
        s.activeFs2.start ≠ s.cxt.trialFwdIdx * 4096 ∧ Vacant P s.fu.dev.log x) :
    OpenEnd d₀ P h hi s (openImage h s) := by
  rw [openImage, Cmd.bind_ok (Cmd.modify_apply _ _)]
  by_cases hfs1 : h.imageId = fs1ImgId
  · rw [if_pos hfs1]
    exact createFs1_laid hext hfs1 hhi (hfs hfs1)
  rw [if_neg hfs1, Cmd.bind_ok (Cmd.gets_apply _ _)]
  set s₁ : Session := s.setCxt fun c => { c with imageWrtCount := 0, imageWrtLength := h.imageLength } with hs₁
  set start := if h.imageId = sblImgId then s₁.cxt.trialSblStart else s₁.cxt.trialMemStart with hstart
  have hpe : s.imageSpot h = ⟨h.imageId, u32 start, h.diskSize⟩ := by rw [Session.imageSpot, if_neg hfs1]; rfl
  set e := (newEntry h.imageId h.version start h.diskSize).encode with he
  rcases create_laid (s := s₁) P (s.imageSpot h) h.imageId h.version start h.diskSize 0 hext (s.imageSpot_imgId h).symm (by rw [hpe]) (by rw [hpe])
    (fun _ _ a e _ _ x hx hx' => by omega) with heq' | ⟨a, k', fu', heq', hdev, hat, hlaid⟩
  · rw [Cmd.bind_error heq']
    exact .error _ rfl
  rw [Cmd.bind_ok heq']
  obtain ⟨r, ws, heq, hord, -, hok⟩ :=
    Laid.erase (s := { s₁ with fu := fu', cxt := { s₁.cxt with partitionHdl := some k' } }) (o := 0) hlaid hn rfl hat rfl
      (le_refl _) (le_refl _) (fun _ => by simpa using hlaid.lt)
  rw [heq]
  refine ⟨⟨.program a e :: ws, ?_, ?_, ?_⟩, ?_⟩
  · show fu'.dev.writes ws = _
    rw [hdev, ← Dev.writes_append]
    rfl
  · intro w hw
    simp only [List.head?_cons, Option.some.injEq] at hw
    exact ⟨a, start, by rw [hpe], by rw [← hw, hpe]⟩
  · have hlog : fu'.dev.log = s.fu.dev.log ++ [.program a e] := by
      rw [hdev]
      rfl
    show AllInOrder P _ (s.fu.dev.log ++ [.program a e]) ws
    rw [← hlog]
    exact hord
  · intro hr
    exact ⟨⟨k', rfl, hat⟩, (hok hr).mono (by omega), rfl⟩

end

end Qcc730.Upgrade
