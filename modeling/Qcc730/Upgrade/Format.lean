import Qcc730.Upgrade.Generator

/-! The tool and the upgrader agree on the format, for most descriptors.

    What the tool packs the upgrader unpacks: the part-1 header, one entry of 184 bytes for each partition, and
    the hash over both. The hashes of the images are the difficulty: for a partial upgrade the tool hashes a
    file with `0xFF` bytes up to the next multiple of 4096, the upgrader with `0xFF` bytes up to the disk size
    of the entry. These are the same only if the partition is not larger than its file, in whole blocks. -/

namespace Qcc730.Upgrade.Generator
open Lib Flash

/-! ### What a run of the tool makes -/

def Child.partition? : Child → Option Partition
  | .partition p => some p
  | .header _ _ _ => none

/-- The partitions of a descriptor, in order. -/
def Xml.partitions (xml : Xml) : List Partition := xml.children.filterMap Child.partition?

/-- The file of a partition, if it has one. -/
def Partition.file (dir : Dir) (p : Partition) : Option Bytes :=
  if p.filename.bytes = [] then none else dir p.filename

/-- An entry after the loop over the files, which does `step` to an entry with a file. -/
def Entry.finish (step : Entry → Bytes → Entry) (dir : Dir) (e : Entry) : Entry :=
  if e.filename.bytes = [] then e else ((dir e.filename).map (step e)).getD e

/-- What the tool does to an entry with its file. -/
def Entry.hashed (sha256 : Bytes → Bytes) (format : ℤ) (e : Entry) (f : Bytes) : Entry :=
  if format = 1 then e.padded sha256 f else e.appended sha256 f

theorem foldl_addChild : ∀ (cs : List Child) (d : Descriptor),
    (cs.foldl Descriptor.addChild d).entries =
      d.entries ++ (cs.filterMap Child.partition?).map Entry.fromXml
  | [], d => (List.append_nil _).symm
  | .header _ _ _ :: cs, _ => foldl_addChild cs _
  | .partition p :: cs, d => by
    rw [List.foldl_cons, foldl_addChild cs]
    show (d.entries ++ [Entry.fromXml p]) ++ _ = d.entries ++ (Entry.fromXml p :: _)
    rw [List.append_assoc, List.singleton_append]

theorem foldl_addChild_hash : ∀ (cs : List Child) (d : Descriptor),
    (cs.foldl Descriptor.addChild d).hash = d.hash ∧ (cs.foldl Descriptor.addChild d).imageLen = d.imageLen
  | [], _ => ⟨rfl, rfl⟩
  | .header _ _ _ :: cs, _ => foldl_addChild_hash cs _
  | .partition _ :: cs, _ => foldl_addChild_hash cs _

/-- The loop of a partial upgrade, when all files are there. -/
theorem padEntries_ok {sha256 : Bytes → Bytes} : ∀ {es es' : List Entry} {dir : Dir},
    padEntries sha256 es dir = some es' →
      es' = es.map (Entry.finish (Entry.padded sha256) dir) ∧
      ∀ e ∈ es, e.filename.bytes ≠ [] → (dir e.filename).isSome
  | [], es', dir, h => by
    cases h
    exact ⟨rfl, by simp⟩
  | e :: es, es', dir, h => by
    rw [padEntries] at h
    by_cases hn : e.filename.bytes = []
    · rw [if_pos hn, Option.map_eq_some_iff] at h
      obtain ⟨r, hr, rfl⟩ := h
      obtain ⟨rfl, hall⟩ := padEntries_ok hr
      refine ⟨?_, ?_⟩
      · rw [List.map_cons, Entry.finish, if_pos hn]
      · intro x hx hne
        rcases List.mem_cons.mp hx with rfl | hx
        · exact absurd hn hne
        · exact hall x hx hne
    · rw [if_neg hn] at h
      rcases hf : dir e.filename with _ | f <;> simp only [hf] at h
      · cases h
      rw [Option.map_eq_some_iff] at h
      obtain ⟨r, hr, rfl⟩ := h
      obtain ⟨rfl, hall⟩ := padEntries_ok hr
      -- a file that is still there is not the temporary one
      have hsame : ∀ x ∈ es, x.filename.bytes ≠ [] →
          Function.update dir tempFile none x.filename = dir x.filename := by
        intro x hx hne
        have hs := hall x hx hne
        by_cases ht : x.filename = tempFile
        · rw [ht, Function.update_self] at hs
          cases hs
        · exact Function.update_of_ne ht _ _
      refine ⟨?_, ?_⟩
      · rw [List.map_cons, Entry.finish, if_neg hn, hf]
        congr 1
        apply List.map_congr_left
        intro x hx
        by_cases hne : x.filename.bytes = []
        · rw [Entry.finish, Entry.finish, if_pos hne, if_pos hne]
        · rw [Entry.finish, Entry.finish, hsame x hx hne]
      · intro x hx hne
        rcases List.mem_cons.mp hx with rfl | hx
        · rw [hf]
          rfl
        · rw [← hsame x hx hne]
          exact hall x hx hne

/-- The loop of an all-in-one file, when all files are there. -/
theorem appendEntries_ok {sha256 : Bytes → Bytes} {dir : Dir} : ∀ {es es' : List Entry} {body : Bytes},
    appendEntries sha256 dir es = some (es', body) →
      es' = es.map (Entry.finish (Entry.appended sha256) dir) ∧
      ∀ e ∈ es, e.filename.bytes ≠ [] → (dir e.filename).isSome
  | [], es', body, h => by
    cases h
    exact ⟨rfl, by simp⟩
  | e :: es, es', body, h => by
    rw [appendEntries] at h
    by_cases hn : e.filename.bytes = []
    · rw [if_pos hn, Option.map_eq_some_iff] at h
      obtain ⟨⟨r, rest⟩, hr, heq⟩ := h
      cases heq
      obtain ⟨rfl, hall⟩ := appendEntries_ok hr
      refine ⟨?_, ?_⟩
      · rw [List.map_cons, Entry.finish, if_pos hn]
      · intro x hx hne
        rcases List.mem_cons.mp hx with rfl | hx
        · exact absurd hn hne
        · exact hall x hx hne
    · rw [if_neg hn] at h
      rcases hf : dir e.filename with _ | f <;> simp only [hf] at h
      · cases h
      rw [Option.map_eq_some_iff] at h
      obtain ⟨⟨r, rest⟩, hr, heq⟩ := h
      cases heq
      obtain ⟨rfl, hall⟩ := appendEntries_ok hr
      refine ⟨?_, ?_⟩
      · rw [List.map_cons, Entry.finish, if_neg hn, hf]
        rfl
      · intro x hx hne
        rcases List.mem_cons.mp hx with rfl | hx
        · rw [hf]
          rfl
        · exact hall x hx hne

/-! ### Packing -/

/-- A number that `struct` packs in four bytes. -/
def Word (v : ℤ) : Prop := 0 ≤ v ∧ v < 2 ^ 32

theorem packI_ok {v : ℤ} {b : Bytes} (h : packI v = some b) : Word v ∧ b = le32 v.toNat := by
  rw [packI] at h
  split at h
  · rename_i hv
    cases h
    exact ⟨hv, rfl⟩
  · cases h

theorem packB_ok {v : ℕ} {b : Bytes} (h : packB v = some b) : v < 256 ∧ b = [UInt8.ofNat v] := by
  rw [packB] at h
  split at h
  · rename_i hv
    cases h
    exact ⟨hv, rfl⟩
  · cases h

theorem Word.toNat_lt {v : ℤ} (h : Word v) : v.toNat < 2 ^ 32 := by
  have := h.2
  omega

@[simp] theorem length_pack128s (b : Bytes) : (pack128s b).length = 128 := by
  rw [pack128s, List.length_append, List.length_take, List.length_replicate]
  omega

/-- The numbers of an entry can be packed. -/
structure Entry.Packs (e : Entry) : Prop where
  signature : Word e.signature
  imageId : Word e.imageId
  ver : Word e.ver
  diskSize : Word e.diskSize
  imageLen : Word e.imageLen
  hashType : Word e.hashType

/-- The bytes of an entry. -/
def Entry.image (e : Entry) : Bytes :=
  le32 e.signature.toNat ++ le32 e.imageId.toNat ++ le32 e.ver.toNat ++ pack128s e.filename.bytes ++
    le32 e.diskSize.toNat ++ le32 e.imageLen.toNat ++ le32 e.hashType.toNat ++ e.hash

/-- The entry as the upgrader has it. -/
def Entry.hdr (e : Entry) : ImageHdr :=
  ⟨e.signature.toNat, e.imageId.toNat, e.ver.toNat, e.diskSize.toNat, e.imageLen.toNat, e.hashType.toNat, e.hash⟩

theorem Entry.toBinary_ok {e : Entry} {b : Bytes} (h : e.toBinary = some b) : e.Packs ∧ b = e.image := by
  simp only [Entry.toBinary, Option.bind_eq_bind, Option.bind_eq_some_iff, Option.pure_def, Option.some.injEq] at h
  obtain ⟨b₁, h₁, b₂, h₂, b₃, h₃, b₄, h₄, b₅, h₅, b₆, h₆, rfl⟩ := h
  obtain ⟨w₁, rfl⟩ := packI_ok h₁
  obtain ⟨w₂, rfl⟩ := packI_ok h₂
  obtain ⟨w₃, rfl⟩ := packI_ok h₃
  obtain ⟨w₄, rfl⟩ := packI_ok h₄
  obtain ⟨w₅, rfl⟩ := packI_ok h₅
  obtain ⟨w₆, rfl⟩ := packI_ok h₆
  exact ⟨⟨w₁, w₂, w₃, w₄, w₅, w₆⟩, rfl⟩

theorem Entry.length_image {e : Entry} (h : e.hash.length = 32) : e.image.length = imageHdrSize := by
  simp only [Entry.image, List.length_append, length_le32, length_pack128s, h]

theorem mapM_toBinary : ∀ {es : List Entry} {bs : List Bytes}, es.mapM Entry.toBinary = some bs →
    (∀ e ∈ es, e.Packs) ∧ bs = es.map Entry.image
  | [], bs, h => by
    cases h
    exact ⟨by simp, rfl⟩
  | e :: es, bs, h => by
    simp only [List.mapM_cons, Option.bind_eq_bind, Option.bind_eq_some_iff, Option.pure_def, Option.some.injEq] at h
    obtain ⟨b, hb, bs', hbs, rfl⟩ := h
    obtain ⟨hp, rfl⟩ := Entry.toBinary_ok hb
    obtain ⟨hall, rfl⟩ := mapM_toBinary hbs
    refine ⟨?_, rfl⟩
    intro x hx
    rcases List.mem_cons.mp hx with rfl | hx
    · exact hp
    · exact hall x hx

/-- The numbers of a descriptor can be packed. -/
structure Descriptor.Packs (d : Descriptor) : Prop where
  signature : Word d.signature
  version : Word d.version
  format : Word d.format
  imageLen : Word d.imageLen
  numImages : d.entries.length < 256
  entries : ∀ e ∈ d.entries, e.Packs

/-- The bytes of a descriptor before its hash. -/
def Descriptor.image (d : Descriptor) : Bytes :=
  le32 d.signature.toNat ++ le32 d.version.toNat ++ le32 d.format.toNat ++ le32 d.imageLen.toNat ++
    [UInt8.ofNat d.entries.length] ++ d.entries.flatMap Entry.image

theorem Descriptor.packed_ok {d : Descriptor} {b : Bytes} (h : d.packed = some b) : d.Packs ∧ b = d.image := by
  simp only [Descriptor.packed, Option.bind_eq_bind, Option.bind_eq_some_iff, Option.pure_def, Option.some.injEq] at h
  obtain ⟨b₁, h₁, b₂, h₂, b₃, h₃, b₄, h₄, b₅, h₅, b₆, h₆, rfl⟩ := h
  obtain ⟨w₁, rfl⟩ := packI_ok h₁
  obtain ⟨w₂, rfl⟩ := packI_ok h₂
  obtain ⟨w₃, rfl⟩ := packI_ok h₃
  obtain ⟨w₄, rfl⟩ := packI_ok h₄
  obtain ⟨w₅, rfl⟩ := packB_ok h₅
  obtain ⟨w₆, rfl⟩ := mapM_toBinary h₆
  exact ⟨⟨w₁, w₂, w₃, w₄, w₅, w₆⟩, by rw [Descriptor.image, List.flatMap]⟩

theorem length_flatMap_image : ∀ {es : List Entry}, (∀ e ∈ es, e.hash.length = 32) →
    (es.flatMap Entry.image).length = es.length * imageHdrSize
  | [], _ => rfl
  | e :: es, h => by
    rw [List.flatMap_cons, List.length_append, Entry.length_image (h e List.mem_cons_self),
      length_flatMap_image fun x hx => h x (List.mem_cons_of_mem _ hx), List.length_cons]
    simp only [imageHdrSize]
    omega

theorem Descriptor.length_image {d : Descriptor} (h : ∀ e ∈ d.entries, e.hash.length = 32) :
    d.image.length = imageSetHdrPart1Size + d.entries.length * imageHdrSize := by
  rw [Descriptor.image, List.length_append, length_flatMap_image h]
  simp only [List.length_append, length_le32, List.length_singleton, imageSetHdrPart1Size]

/-- What a run of the tool that reports success has made. -/
structure Made (sha256 : Bytes → Bytes) (xml : Xml) (dir : Dir) (out : Output) : Prop where
  entries : out.descriptor.entries =
    xml.partitions.map fun p => (Entry.fromXml p).finish (Entry.hashed sha256 out.descriptor.format) dir
  files : ∀ p ∈ xml.partitions, p.filename.bytes ≠ [] → (dir p.filename).isSome
  sizes : ∀ p ∈ xml.partitions, Word (p.sizeInKb * 1024)
  packs : out.descriptor.Packs
  checked : out.descriptor.format ≠ 0 ∧ out.descriptor.signature ≠ 0 ∧ out.descriptor.entries.length ≠ 0
  hash : out.descriptor.hash = sha256 out.descriptor.image
  imageLen : out.descriptor.imageLen = ↑(out.descriptor.image.length + 32)
  file : ∃ body, out.file = out.descriptor.image ++ out.descriptor.hash ++ body

/-- The loop over the files, of either format. -/
theorem entries_ok {sha256 : Bytes → Bytes} {dir : Dir} {format : ℤ} {es es' : List Entry} {body : Bytes}
    (h : readEntries sha256 format es dir = some (es', body)) :
    es' = es.map (Entry.finish (Entry.hashed sha256 format) dir) ∧
      ∀ e ∈ es, e.filename.bytes ≠ [] → (dir e.filename).isSome := by
  rw [readEntries] at h
  by_cases hf : format = 1
  · rw [if_pos hf, Option.map_eq_some_iff] at h
    obtain ⟨r, hr, heq⟩ := h
    cases heq
    have hstep : Entry.hashed sha256 format = Entry.padded sha256 := by
      funext e f
      exact if_pos hf
    rw [hstep]
    exact padEntries_ok hr
  · rw [if_neg hf] at h
    have hstep : Entry.hashed sha256 format = Entry.appended sha256 := by
      funext e f
      exact if_neg hf
    rw [hstep]
    exact appendEntries_ok h

theorem Entry.length_finish {sha256 : Bytes → Bytes} (hsha : ∀ b, (sha256 b).length = 32) (format : ℤ) (dir : Dir)
    (p : Partition) : ((Entry.fromXml p).finish (Entry.hashed sha256 format) dir).hash.length = 32 := by
  rw [Entry.finish]
  split
  · rfl
  rcases dir (Entry.fromXml p).filename with _ | f
  · rfl
  · show (Entry.hashed sha256 format (Entry.fromXml p) f).hash.length = 32
    rw [Entry.hashed]
    split
    · exact hsha _
    · exact hsha _

theorem generate_ok {sha256 : Bytes → Bytes} (hsha : ∀ b, (sha256 b).length = 32) {xml : Xml} {dir : Dir}
    {out : Output} (h : generate sha256 xml dir = some out) : Made sha256 xml dir out := by
  simp only [generate, Descriptor.fromXmlFile, Option.bind_eq_bind, Option.bind_eq_some_iff] at h
  obtain ⟨d, hd, h⟩ := h
  split at hd
  · cases hd
  cases hd
  set d := xml.children.foldl Descriptor.addChild Descriptor.init with hd
  have hent : d.entries = xml.partitions.map Entry.fromXml := foldl_addChild _ _
  obtain ⟨hhash, hlen⟩ := foldl_addChild_hash xml.children .init
  rw [← hd] at hhash hlen
  split at h
  swap
  · cases h
  rename_i hcheck
  simp only [genWholeDiskBinary, Descriptor.toBinary, Descriptor.updateHash, Option.bind_eq_bind,
    Option.bind_eq_some_iff, Option.map_eq_some_iff, Option.pure_def, Option.some.injEq] at h
  obtain ⟨first, ⟨b₁, h₁, rfl⟩, ⟨es, body⟩, h₂, d₂, ⟨b₃, h₃, rfl⟩, header, ⟨b₄, h₄, rfl⟩, rfl⟩ := h
  obtain ⟨hp₁, rfl⟩ := Descriptor.packed_ok h₁
  obtain ⟨rfl, hfiles⟩ := entries_ok h₂
  obtain ⟨hp₃, rfl⟩ := Descriptor.packed_ok h₃
  cases h₄.symm.trans h₃
  have h0 : ∀ e ∈ d.entries, e.hash.length = 32 := by
    intro e he
    rw [hent] at he
    obtain ⟨p, -, rfl⟩ := List.mem_map.mp he
    rfl
  have h32 : ∀ e ∈ d.entries.map (Entry.finish (Entry.hashed sha256 d.format) dir), e.hash.length = 32 := by
    intro e he
    rw [hent, List.map_map] at he
    obtain ⟨p, -, rfl⟩ := List.mem_map.mp he
    exact Entry.length_finish hsha _ _ _
  have hlen₁ : (d.image ++ d.hash).length = imageSetHdrPart1Size + d.entries.length * imageHdrSize + 32 := by
    rw [List.length_append, Descriptor.length_image h0, hhash]
    rfl
  have hlen₂ : ∀ n s, (Descriptor.image ⟨d.signature, d.version, d.format, n,
      d.entries.map (Entry.finish (Entry.hashed sha256 d.format) dir), s⟩).length + 32 =
      imageSetHdrPart1Size + d.entries.length * imageHdrSize + 32 := by
    intro n s
    rw [Descriptor.length_image h32, List.length_map]
  refine ⟨?_, ?_, ?_, ⟨hp₃.signature, hp₃.version, hp₃.format, hp₃.imageLen, hp₃.numImages, hp₃.entries⟩, ?_, rfl, ?_, ?_⟩
  · show d.entries.map _ = _
    rw [hent, List.map_map]
    rfl
  · intro p hp hne
    refine hfiles (Entry.fromXml p) ?_ hne
    rw [hent]
    exact List.mem_map_of_mem hp
  · intro p hp
    refine (hp₁.entries (Entry.fromXml p) ?_).diskSize
    rw [hent]
    exact List.mem_map_of_mem hp
  · refine ⟨hcheck.2.1, hcheck.2.2.1, ?_⟩
    rw [List.length_map]
    exact hcheck.2.2.2
  · show d.imageLen + ((d.image ++ d.hash).length : ℤ) = _
    rw [hlen, hlen₁, hlen₂]
    exact Int.zero_add _
  · refine ⟨body, ?_⟩
    show _ ++ _ = _ ++ _
    congr 1
    refine List.drop_left' ?_
    rw [hlen₁, List.length_append, hsha]
    exact (hlen₂ _ _).symm

/-! ### Unpacking -/

/-- The part-1 header that the upgrader reads. -/
theorem decode_image {d : Descriptor} (h : d.Packs) (r : Bytes) :
    ImageSetHdr.decode (d.image ++ r) =
      ⟨d.signature.toNat, d.version.toNat, d.format.toNat, d.imageLen.toNat, d.entries.length⟩ := by
  simp only [Descriptor.image, List.append_assoc, ImageSetHdr.decode]
  have h16 : UInt8.toNat (UInt8.ofNat d.entries.length) = d.entries.length := by
    rw [UInt8.toNat_ofNat']
    exact Nat.mod_eq_of_lt h.numImages
  congr 1
  · exact wordAt_le32_append h.signature.toNat_lt _
  · rw [wordAt_skip (length_le32 _) _ 0]
    exact wordAt_le32_append h.version.toNat_lt _
  · rw [wordAt_skip (length_le32 _) _ 4, wordAt_skip (length_le32 _) _ 0]
    exact wordAt_le32_append h.format.toNat_lt _
  · rw [wordAt_skip (length_le32 _) _ 8, wordAt_skip (length_le32 _) _ 4, wordAt_skip (length_le32 _) _ 0]
    exact wordAt_le32_append h.imageLen.toNat_lt _

theorem decode_drop (b : Bytes) (o : ℕ) : ImageHdr.decode (b.drop o) 0 = ImageHdr.decode b o := by
  simp only [ImageHdr.decode, wordAt_drop, List.drop_drop, Nat.zero_add, Nat.add_zero]

/-- An entry that the upgrader reads. -/
theorem decode_entry {e : Entry} (h : e.Packs) (hh : e.hash.length = 32) (r : Bytes) :
    ImageHdr.decode (e.image ++ r) 0 = e.hdr := by
  simp only [Entry.image, List.append_assoc, ImageHdr.decode, Entry.hdr, Nat.zero_add]
  congr 1
  · exact wordAt_le32_append h.signature.toNat_lt _
  · rw [wordAt_skip (length_le32 _) _ 0]
    exact wordAt_le32_append h.imageId.toNat_lt _
  · rw [wordAt_skip (length_le32 _) _ 4, wordAt_skip (length_le32 _) _ 0]
    exact wordAt_le32_append h.ver.toNat_lt _
  · rw [wordAt_skip (length_le32 _) _ 136, wordAt_skip (length_le32 _) _ 132, wordAt_skip (length_le32 _) _ 128,
      wordAt_skip (length_pack128s _) _ 0]
    exact wordAt_le32_append h.diskSize.toNat_lt _
  · rw [wordAt_skip (length_le32 _) _ 140, wordAt_skip (length_le32 _) _ 136, wordAt_skip (length_le32 _) _ 132,
      wordAt_skip (length_pack128s _) _ 4, wordAt_skip (length_le32 _) _ 0]
    exact wordAt_le32_append h.imageLen.toNat_lt _
  · rw [wordAt_skip (length_le32 _) _ 144, wordAt_skip (length_le32 _) _ 140, wordAt_skip (length_le32 _) _ 136,
      wordAt_skip (length_pack128s _) _ 8, wordAt_skip (length_le32 _) _ 4, wordAt_skip (length_le32 _) _ 0]
    exact wordAt_le32_append h.hashType.toNat_lt _
  · have hpre : (le32 e.signature.toNat ++ le32 e.imageId.toNat ++ le32 e.ver.toNat ++ pack128s e.filename.bytes ++
        le32 e.diskSize.toNat ++ le32 e.imageLen.toNat ++ le32 e.hashType.toNat).length = 152 := by
      simp only [List.length_append, length_le32, length_pack128s]
    simp only [← List.append_assoc]
    rw [List.append_assoc _ e.hash r, List.drop_left' hpre, List.take_left' hh]

theorem drop_flatMap_image : ∀ {es : List Entry}, (∀ e ∈ es, e.hash.length = 32) → ∀ i ≤ es.length,
    (es.flatMap Entry.image).drop (i * imageHdrSize) = (es.drop i).flatMap Entry.image
  | es, _, 0, _ => by rw [Nat.zero_mul, List.drop_zero, List.drop_zero]
  | [], _, i + 1, hi => absurd hi (by simp)
  | e :: es, h, i + 1, hi => by
    rw [List.flatMap_cons, Nat.succ_mul, Nat.add_comm, ← List.drop_drop,
      List.drop_left' (Entry.length_image (h e List.mem_cons_self)), List.drop_succ_cons]
    exact drop_flatMap_image (fun x hx => h x (List.mem_cons_of_mem _ hx)) i (Nat.le_of_succ_le_succ hi)

/-- The bytes of the header from entry `i` on. -/
theorem drop_image {d : Descriptor} (hh : ∀ e ∈ d.entries, e.hash.length = 32) (r : Bytes) {i : ℕ}
    (hi : i ≤ d.entries.length) :
    (d.image ++ r).drop (imageSetHdrPart1Size + i * imageHdrSize) = (d.entries.drop i).flatMap Entry.image ++ r := by
  have h17 : (le32 d.signature.toNat ++ le32 d.version.toNat ++ le32 d.format.toNat ++ le32 d.imageLen.toNat ++
      [UInt8.ofNat d.entries.length]).length = imageSetHdrPart1Size := by
    simp only [List.length_append, length_le32, List.length_singleton]
  rw [Descriptor.image, List.append_assoc, ← List.drop_drop, List.drop_left' h17,
    List.drop_append_of_le_length, drop_flatMap_image hh i hi]
  rw [length_flatMap_image hh]
  exact Nat.mul_le_mul_right _ hi

/-- The entries that the upgrader reads. -/
theorem imageHdrs_image {d : Descriptor} (h : d.Packs) (hh : ∀ e ∈ d.entries, e.hash.length = 32) (r : Bytes) :
    imageHdrs (d.image ++ r) d.entries.length = d.entries.map Entry.hdr := by
  apply List.ext_getElem
  · simp only [imageHdrs, List.length_map, List.length_range]
  intro i hi _
  have hlt : i < d.entries.length := by simpa only [imageHdrs, List.length_map, List.length_range] using hi
  simp only [imageHdrs, List.getElem_map, List.getElem_range]
  rw [← decode_drop, drop_image hh r hlt.le, List.drop_eq_getElem_cons hlt, List.flatMap_cons, List.append_assoc]
  exact decode_entry (h.entries _ (List.getElem_mem hlt)) (hh _ (List.getElem_mem hlt)) _

/-! ### Names -/

/-- An entry in the array of the upgrader: the bytes of the file, but for the disk size. -/
def savedEntry (b : Bytes) (i : ℕ) (h : ImageHdr) : Bytes :=
  (b.drop (imageSetHdrPart1Size + i * imageHdrSize)).take 140 ++ le32 h.diskSize ++
    (b.drop (imageSetHdrPart1Size + i * imageHdrSize + 144)).take 40

/-- `image_file` of entry `i` as a C string: it ends at the first zero, in the name or behind it. -/
def imageFile (b : Bytes) (hs : List ImageHdr) (i : ℕ) : Bytes :=
  (((hs.zipIdx.drop i).flatMap fun x => savedEntry b x.2 x.1).drop 12).takeWhile (· ≠ 0)

/-- The string in a field of 128 bytes that a zero follows. -/
theorem takeWhile_pack128s {name : Bytes} (hn : (0 : UInt8) ∉ name) {n : ℕ} (h : name.length < 128 ∨ n % 256 = 0)
    (r : Bytes) : (pack128s name ++ (le32 n ++ r)).takeWhile (· ≠ 0) = name.take 128 := by
  have hne : ∀ x ∈ name.take 128, decide (x ≠ 0) = true := by
    intro x hx
    rw [decide_eq_true_eq]
    rintro rfl
    exact hn (List.mem_of_mem_take hx)
  rw [pack128s, List.append_assoc, List.takeWhile_append_of_pos hne]
  have hnil : (List.replicate (128 - name.length) (0 : UInt8) ++ (le32 n ++ r)).takeWhile (· ≠ 0) = [] := by
    rcases hk : 128 - name.length with _ | k
    · have h0 : n % 256 = 0 := h.resolve_left (by omega)
      have hz : UInt8.ofNat n = 0 := by
        apply UInt8.toNat_inj.mp
        rw [UInt8.toNat_ofNat']
        exact h0
      rw [List.replicate_zero, List.nil_append, le32, List.cons_append, hz]
      rfl
    · rfl
  rw [hnil, List.append_nil]

/-- The name stands behind three words. -/
theorem Entry.take_image (e : Entry) (r : Bytes) :
    ∃ q, (e.image ++ r).take 140 = q ++ pack128s e.filename.bytes ∧ q.length = 12 := by
  have h140 : (le32 e.signature.toNat ++ le32 e.imageId.toNat ++ le32 e.ver.toNat ++
      pack128s e.filename.bytes).length = 140 := by
    simp only [List.length_append, length_le32, length_pack128s]
  refine ⟨le32 e.signature.toNat ++ le32 e.imageId.toNat ++ le32 e.ver.toNat, ?_, rfl⟩
  rw [Entry.image]
  generalize le32 e.signature.toNat ++ le32 e.imageId.toNat ++ le32 e.ver.toNat ++ pack128s e.filename.bytes = q at *
  simp only [List.append_assoc]
  exact List.take_left' h140

/-- The name of entry `i` of a header that the tool made. -/
theorem imageFile_image {d : Descriptor} (hh : ∀ e ∈ d.entries, e.hash.length = 32) (r : Bytes) (hs : List ImageHdr)
    {i : ℕ} {e : Entry} {h : ImageHdr} (he : d.entries[i]? = some e) (hi : hs[i]? = some h)
    (hz : e.filename.bytes.length < 128 ∨ h.diskSize % 256 = 0) :
    imageFile (d.image ++ r) hs i = e.filename.bytes.take 128 := by
  obtain ⟨hlt, rfl⟩ := List.getElem?_eq_some_iff.mp he
  obtain ⟨hlt', rfl⟩ := List.getElem?_eq_some_iff.mp hi
  have hidx : i < hs.zipIdx.length := by rwa [List.length_zipIdx]
  obtain ⟨q, hq, h12⟩ := (d.entries[i]).take_image ((d.entries.drop (i + 1)).flatMap Entry.image ++ r)
  rw [imageFile, List.drop_eq_getElem_cons hidx, List.flatMap_cons, List.getElem_zipIdx]
  simp only [Nat.zero_add]
  rw [savedEntry, drop_image hh r hlt.le, List.drop_eq_getElem_cons hlt, List.flatMap_cons,
    List.append_assoc (d.entries[i]).image, hq]
  simp only [List.append_assoc]
  rw [List.drop_left' h12]
  exact takeWhile_pack128s (d.entries[i]).filename.noNul hz _

/-! ### Sums -/

/-- What the counted entries take. -/
def countedSum (f : ImageHdr → ℕ) (hs : List ImageHdr) : ℕ := (hs.map fun h => if h.Counted then f h else 0).sum

/-- The sums over the entries, when they do not wrap. -/
theorem foldl_add : ∀ (hs : List ImageHdr) (t : Tally),
    t.diskSize + countedSum ImageHdr.diskSize hs < 2 ^ 32 → t.len + countedSum ImageHdr.imageLength hs < 2 ^ 32 →
    (hs.foldl Tally.add t).diskSize = t.diskSize + countedSum ImageHdr.diskSize hs ∧
      (hs.foldl Tally.add t).len = t.len + countedSum ImageHdr.imageLength hs
  | [], _, _, _ => ⟨rfl, rfl⟩
  | h :: hs, t, hd, hl => by
    simp only [countedSum, List.map_cons, List.sum_cons] at hd hl ⊢
    have hadd : (t.add h).diskSize = t.diskSize + (if h.Counted then h.diskSize else 0) ∧
        (t.add h).len = t.len + (if h.Counted then h.imageLength else 0) := by
      simp only [Tally.add]
      split
      · rename_i hc
        rw [if_pos hc] at hd hl
        exact ⟨u32_of_lt (by omega), u32_of_lt (by omega)⟩
      · exact ⟨rfl, rfl⟩
    obtain ⟨h₁, h₂⟩ := foldl_add hs (t.add h) (by rw [hadd.1]; simp only [countedSum]; omega)
      (by rw [hadd.2]; simp only [countedSum]; omega)
    rw [List.foldl_cons, h₁, h₂, hadd.1, hadd.2]
    simp only [countedSum]
    omega

theorem countedSum_le : ∀ {hs : List ImageHdr}, (∀ h ∈ hs, h.imageLength ≤ h.diskSize) →
    countedSum ImageHdr.imageLength hs ≤ countedSum ImageHdr.diskSize hs
  | [], _ => Nat.le_refl _
  | h :: hs, hle => by
    have ih := countedSum_le fun x hx => hle x (List.mem_cons_of_mem h hx)
    have h0 := hle h List.mem_cons_self
    simp only [countedSum, List.map_cons, List.sum_cons] at ih ⊢
    split <;> omega

/-- What the pass over the entries notes about the SBL and the APP. -/
theorem foldl_add_exist : ∀ (hs : List ImageHdr) (t : Tally),
    ((hs.foldl Tally.add t).sblImageExist = true ↔ t.sblImageExist = true ∨ ∃ h ∈ hs, h.imageId = sblImgId) ∧
    ((hs.foldl Tally.add t).appImageExist = true ↔ t.appImageExist = true ∨ ∃ h ∈ hs, h.imageId = appImgId)
  | [], _ => by simp
  | h :: hs, t => by
    obtain ⟨h₁, h₂⟩ := foldl_add_exist hs (t.add h)
    rw [List.foldl_cons]
    constructor
    · rw [h₁, Tally.add]
      simp only [Bool.or_eq_true, beq_iff_eq, List.mem_cons, exists_eq_or_imp]
      tauto
    · rw [h₂, Tally.add]
      simp only [Bool.or_eq_true, beq_iff_eq, List.mem_cons, exists_eq_or_imp]
      tauto

theorem foldl_add_sbl {n : ℕ} : ∀ (hs : List ImageHdr) (t : Tally), t.sblDiskSize ≤ n →
    (∀ h ∈ hs, h.imageId = sblImgId → h.diskSize ≤ n) → (hs.foldl Tally.add t).sblDiskSize ≤ n
  | [], _, ht, _ => ht
  | h :: hs, t, ht, hall => by
    refine foldl_add_sbl hs (t.add h) ?_ fun x hx => hall x (List.mem_cons_of_mem _ hx)
    simp only [Tally.add]
    split
    · rename_i hid
      exact hall h List.mem_cons_self hid
    · exact ht

/-- There is room for what the tool made: the trial FWD can be programmed, the block-rounded partitions other than
    the file systems and the SBL fit in the trial memory, none of them is larger than 4 GB, and there is an SBL slot
    for an SBL, which does not come without an APP. -/
structure Room (env : Env) (s : Session) (es : List Entry) : Prop where
  canSet : ∀ info ∈ [FwdInfo.magic, .version, .totalImage], s.CanSet info
  flash : countedSum (fun h => blockCeil h.diskSize) (es.map Entry.hdr) ≤ s.cxt.trialMemSize
  mem : s.cxt.trialMemSize < 2 ^ 32
  size : ∀ e ∈ es, e.imageId ≠ ↑sblImgId → blockCeil e.diskSize.toNat < 2 ^ 32
  sbl : ∃ i start size, fwUpgradeSelectSblTrialFde env.cfg s.fu.dev.mem.fdt = some (i, start, size) ∧
    ∀ e ∈ es, e.imageId = ↑sblImgId → e.diskSize ≤ ↑size
  app : (∃ e ∈ es, e.imageId = ↑sblImgId) → ∃ e ∈ es, e.imageId = ↑appImgId

section

variable {env : Env} {s : Session} {es : List Entry}

theorem Entry.Packs.id_iff {e : Entry} (h : e.Packs) (n : ℕ) : e.hdr.imageId = n ↔ e.imageId = ↑n := by
  have := h.imageId.1
  show e.imageId.toNat = n ↔ _
  omega

/-- The disk size that the upgrader goes by. -/
theorem Room.adjust (hr : Room env s es) (hp : ∀ e ∈ es, e.Packs) {e : Entry} (he : e ∈ es) :
    e.hdr.adjust.diskSize = if e.imageId = ↑sblImgId then e.diskSize.toNat else blockCeil e.diskSize.toNat := by
  by_cases hid : e.imageId = ↑sblImgId
  · rw [if_pos hid, ImageHdr.adjust_sbl (((hp e he).id_iff _).mpr hid)]
    rfl
  · rw [if_neg hid, ImageHdr.adjust_diskSize (mt ((hp e he).id_iff _).mp hid)]
    exact alignDiskSize_eq (hr.size e he hid)

theorem Room.countedSum_adjust (hr : Room env s es) (hp : ∀ e ∈ es, e.Packs) :
    countedSum ImageHdr.diskSize ((es.map Entry.hdr).map ImageHdr.adjust) =
      countedSum (fun h => blockCeil h.diskSize) (es.map Entry.hdr) := by
  simp only [countedSum, List.map_map]
  congr 1
  apply List.map_congr_left
  intro e he
  have hiff : e.hdr.adjust.Counted ↔ e.hdr.Counted := by
    simp only [ImageHdr.Counted, ImageHdr.adjust_imageId]
  simp only [Function.comp, hiff]
  by_cases hc : e.hdr.Counted
  · rw [if_pos hc, if_pos hc, hr.adjust hp he, if_neg (mt ((hp e he).id_iff _).mpr hc.2.2)]
    rfl
  · rw [if_neg hc, if_neg hc]

/-- The images fit, by the upgrader's own sums. -/
theorem Room.fits (hr : Room env s es) (hp : ∀ e ∈ es, e.Packs) (hle : ∀ e ∈ es, e.imageLen ≤ e.diskSize) :
    (tally (es.map Entry.hdr)).Fits env s.cxt.trialMemSize s.fu.dev.mem.fdt := by
  have hlen : ∀ h ∈ (es.map Entry.hdr).map ImageHdr.adjust, h.imageLength ≤ h.diskSize := by
    intro h hh
    rw [List.map_map] at hh
    obtain ⟨e, he, rfl⟩ := List.mem_map.mp hh
    have h₁ := hle e he
    have h₂ : e.hdr.adjust.imageLength = e.imageLen.toNat := ImageHdr.adjust_imageLength _
    have h₃ := le_blockCeil e.diskSize.toNat
    show e.hdr.adjust.imageLength ≤ e.hdr.adjust.diskSize
    rw [h₂, hr.adjust hp he]
    split <;> omega
  have hsum := hr.countedSum_adjust hp
  have hflash := hr.flash
  have hmem := hr.mem
  have hcl := countedSum_le hlen
  obtain ⟨hd, hl⟩ := foldl_add ((es.map Entry.hdr).map ImageHdr.adjust) Tally.zero
    (by show 0 + _ < _; omega) (by show 0 + _ < _; omega)
  obtain ⟨hs, ha⟩ := foldl_add_exist ((es.map Entry.hdr).map ImageHdr.adjust) Tally.zero
  have hex : ∀ n : ℕ, (∃ h ∈ (es.map Entry.hdr).map ImageHdr.adjust, h.imageId = n) ↔ ∃ e ∈ es, e.imageId = ↑n := by
    intro n
    simp only [List.map_map, List.mem_map, Function.comp]
    constructor
    · rintro ⟨h, ⟨e, he, rfl⟩, hid⟩
      rw [ImageHdr.adjust_imageId, (hp e he).id_iff] at hid
      exact ⟨e, he, hid⟩
    · rintro ⟨e, he, hid⟩
      refine ⟨_, ⟨e, he, rfl⟩, ?_⟩
      rw [ImageHdr.adjust_imageId, (hp e he).id_iff]
      exact hid
  obtain ⟨i, start, size, hsel, hsz⟩ := hr.sbl
  refine ⟨?_, ?_, ?_, i, start, size, hsel, ?_⟩
  · rintro ⟨h₁, h₂⟩
    rw [tally] at h₁ h₂
    rw [hs, hex] at h₁
    have := hr.app (h₁.resolve_left (by simp [Tally.zero]))
    rw [← hex] at this
    rw [ha.mpr (.inr this)] at h₂
    cases h₂
  · rw [tally, hd]
    show 0 + _ ≤ _
    omega
  · rw [tally, hd, hl]
    exact Nat.add_le_add_left hcl 0
  · refine foldl_add_sbl _ _ (Nat.zero_le _) ?_
    intro h hh hid
    rw [List.map_map] at hh
    obtain ⟨e, he, rfl⟩ := List.mem_map.mp hh
    rw [Function.comp, ImageHdr.adjust_imageId, (hp e he).id_iff] at hid
    have := hsz e he hid
    rw [Function.comp, hr.adjust hp he, if_pos hid]
    omega

end

/-! ### Agreement -/

theorem fill_eq (n : ℕ) : n + fill n = blockCeil n := by
  rw [fill, blockCeil]
  split <;> omega

/-- What the tool hashes of the file `f` for a partial upgrade. -/
def Partition.toolData (p : Partition) (f : Bytes) : Bytes :=
  readBack p.filename f ++ List.replicate (fill f.length) 0xFF

/-- What the upgrader hashes of the image `f` in a partial upgrade. -/
def deviceData (h : ImageHdr) (f : Bytes) : Bytes := f ++ List.replicate (u32sub h.diskSize h.imageLength) 0xFF

/-- The name that the tool puts in the header: an all-in-one file needs none. -/
def Partition.listedName (format : ℤ) (p : Partition) : Bytes := if format = 1 then p.filename.bytes else []

/-- Entry `i` of the upgrader is the partition `p`, and the file of `p` passes as its image. -/
structure Matches (env : Env) (format : ℤ) (dir : Dir) (b : Bytes) (hs : List ImageHdr) (i : ℕ) (p : Partition)
    (h : ImageHdr) : Prop where
  imageId : (h.imageId : ℤ) = p.imageId
  version : (h.version : ℤ) = p.ver
  length : h.imageLength = ((p.file dir).getD []).length
  name : imageFile b hs i = p.listedName format
  verified : ∀ f, p.file dir = some f → ∀ t : Session, (t.cxt.format : ℤ) = format → t.cxt.digest = f →
    (verifyImageHash env h t).1 = .ok ()

/-- The upgrader takes the file over, in the pieces `cs`, and gets what the descriptor says. -/
def Agrees (env : Env) (s : Session) (xml : Xml) (dir : Dir) (out : Output) (cs : List Bytes) : Prop :=
  ∃ hs rest, HeaderResult env (s.receiving cs) (.accepted hs rest) ∧ hs.length = xml.partitions.length ∧
    ∀ i p h, xml.partitions[i]? = some p → hs[i]? = some h →
      Matches env out.descriptor.format dir out.file hs i p h

/-- The partition takes space; and in a partial upgrade, if it has a file, the name fits in its field, the file is not
    the tool's own, and the partition is not larger than the file in whole blocks. -/
structure Partition.Good (format : ℤ) (dir : Dir) (p : Partition) : Prop where
  space : p.sizeInKb ≠ 0 ∨ ∃ f, p.file dir = some f ∧ f ≠ []
  fits : format = 1 → ∀ f, p.file dir = some f →
    p.filename.bytes.length ≤ 128 ∧ p.filename ≠ tempFile ∧ p.sizeInKb * 1024 ≤ ↑(blockCeil f.length)

section

variable {env : Env} {s : Session} {sha256 : Bytes → Bytes} {format : ℤ} {dir : Dir} {p : Partition} {f : Bytes}

theorem Entry.updateImageLen_eq (e : Entry) (n : ℤ) :
    e.updateImageLen n = { e with imageLen := n, diskSize := max e.diskSize n } := by
  rw [Entry.updateImageLen]
  congr 1
  split <;> omega

theorem Entry.updateDiskSize_eq (e : Entry) (n : ℤ) :
    e.updateDiskSize n = { e with diskSize := max e.diskSize n } := by
  rw [Entry.updateDiskSize]
  congr 1
  split <;> omega

theorem length_readBack_le (name : FileName) (f : Bytes) : (readBack name f).length ≤ f.length := by
  rw [readBack]
  split
  · exact Nat.zero_le _
  · exact Nat.le_refl _

/-- The entry of a partial upgrade. -/
theorem padded_eq (sha256 : Bytes → Bytes) (p : Partition) (f : Bytes) :
    (Entry.fromXml p).padded sha256 f = { Entry.fromXml p with
      diskSize := max (p.sizeInKb * 1024) ↑(blockCeil f.length), imageLen := f.length
      hash := sha256 (p.toolData f) } := by
  have htake : (p.toolData f).take (f.length + fill f.length) = p.toolData f := by
    apply List.take_of_length_le
    rw [Partition.toolData, List.length_append, List.length_replicate]
    exact Nat.add_le_add_right (length_readBack_le _ _) _
  have hle := le_blockCeil f.length
  have hmax : max (max (p.sizeInKb * 1024) ↑f.length) ↑(f.length + fill f.length) =
      max (p.sizeInKb * 1024) (blockCeil f.length : ℤ) := by
    rw [fill_eq]
    omega
  rw [Entry.padded, Entry.updateImageLen_eq, Entry.updateDiskSize_eq, ← hmax, ← htake]
  rfl

/-- The entry of an all-in-one file. -/
theorem appended_eq (sha256 : Bytes → Bytes) (p : Partition) (f : Bytes) :
    (Entry.fromXml p).appended sha256 f = { Entry.fromXml p with
      filename := .empty, diskSize := max (p.sizeInKb * 1024) ↑f.length, imageLen := f.length, hash := sha256 f } := by
  rw [Entry.appended, Entry.updateImageLen_eq]
  rfl

/-- The entry of a partition when the tool is done. -/
def Partition.entry (sha256 : Bytes → Bytes) (format : ℤ) (dir : Dir) (p : Partition) : Entry :=
  (Entry.fromXml p).finish (Entry.hashed sha256 format) dir

/-- The ways an entry is made: without a file, for a partial upgrade, for an all-in-one file. -/
theorem entry_cases (sha256 : Bytes → Bytes) (format : ℤ) (hfile : p.filename.bytes ≠ [] → (dir p.filename).isSome) :
    (p.file dir = none ∧ p.filename.bytes = [] ∧ p.entry sha256 format dir = Entry.fromXml p) ∨
    (∃ f, p.file dir = some f ∧ format = 1 ∧ p.entry sha256 format dir = (Entry.fromXml p).padded sha256 f) ∨
    (∃ f, p.file dir = some f ∧ format ≠ 1 ∧ p.entry sha256 format dir = (Entry.fromXml p).appended sha256 f) := by
  rw [Partition.entry, Entry.finish, Partition.file]
  by_cases hn : p.filename.bytes = []
  · exact .inl ⟨if_pos hn, hn, if_pos hn⟩
  obtain ⟨f, hf⟩ := Option.isSome_iff_exists.mp (hfile hn)
  rw [if_neg hn, if_neg (show (Entry.fromXml p).filename.bytes ≠ [] from hn)]
  have hfin : ((dir (Entry.fromXml p).filename).map (Entry.hashed sha256 format (Entry.fromXml p))).getD (Entry.fromXml p) =
      Entry.hashed sha256 format (Entry.fromXml p) f := by
    rw [show (Entry.fromXml p).filename = p.filename from rfl, hf]
    rfl
  rw [hfin, Entry.hashed]
  by_cases h1 : format = 1
  · exact .inr (.inl ⟨f, hf, h1, if_pos h1⟩)
  · exact .inr (.inr ⟨f, hf, h1, if_neg h1⟩)

theorem entry_fields (sha256 : Bytes → Bytes) (format : ℤ) (dir : Dir) (p : Partition) :
    (p.entry sha256 format dir).imageId = p.imageId ∧ (p.entry sha256 format dir).ver = p.ver ∧
      (p.entry sha256 format dir).signature = p.signature ∧ (p.entry sha256 format dir).hashType = p.hashType := by
  rw [Partition.entry, Entry.finish]
  split
  · exact ⟨rfl, rfl, rfl, rfl⟩
  rcases dir (Entry.fromXml p).filename with _ | f
  · exact ⟨rfl, rfl, rfl, rfl⟩
  · rw [Option.map_some, Option.getD_some, Entry.hashed]
    split <;> exact ⟨rfl, rfl, rfl, rfl⟩

/-- The disk size of an entry is at least its length, and it is not zero if the partition takes space. -/
theorem entry_sizes (sha256 : Bytes → Bytes) (format : ℤ) (hfile : p.filename.bytes ≠ [] → (dir p.filename).isSome)
    (hk : Word (p.sizeInKb * 1024)) :
    (p.entry sha256 format dir).imageLen ≤ (p.entry sha256 format dir).diskSize ∧
      ((p.entry sha256 format dir).diskSize ≠ 0 ↔ p.sizeInKb ≠ 0 ∨ ∃ f, p.file dir = some f ∧ f ≠ []) := by
  have h0 := hk.1
  rcases entry_cases sha256 format hfile with ⟨hf, -, he⟩ | ⟨f, hf, -, he⟩ | ⟨f, hf, -, he⟩
  · rw [he, hf]
    refine ⟨h0, ?_⟩
    simp only [Entry.fromXml, reduceCtorEq, false_and, exists_false, or_false]
    omega
  · rw [he, padded_eq, hf]
    have hle := le_blockCeil f.length
    have hz : blockCeil f.length = 0 ↔ f.length = 0 := by
      rw [blockCeil]
      omega
    refine ⟨by simp only; omega, ?_⟩
    simp only [Option.some.injEq, exists_eq_left', ← List.length_pos_iff]
    omega
  · rw [he, appended_eq, hf]
    refine ⟨by simp only; omega, ?_⟩
    simp only [Option.some.injEq, exists_eq_left', ← List.length_pos_iff]
    omega

/-- The two hash the same bytes exactly if the file is not the tool's own and not smaller than the partition. -/
theorem toolData_eq_iff {n : ℕ} (hn : n < 2 ^ 32) (hle : blockCeil f.length ≤ n) (h0 : 0 < n)
    (hk : n = blockCeil f.length ↔ p.sizeInKb * 1024 ≤ ↑(blockCeil f.length)) {h : ImageHdr} (hd : h.diskSize = n)
    (hl : h.imageLength = f.length) :
    p.toolData f = deviceData h f ↔ p.filename ≠ tempFile ∧ p.sizeInKb * 1024 ≤ ↑(blockCeil f.length) := by
  have hlen := le_blockCeil f.length
  have hfill := fill_eq f.length
  have hpad : u32sub h.diskSize h.imageLength = n - f.length := by
    rw [hd, hl]
    exact u32sub_of_le hn (by omega)
  rw [Partition.toolData, deviceData, hpad, readBack]
  constructor
  · intro heq
    have hlens := congrArg List.length heq
    simp only [List.length_append, List.length_replicate] at hlens
    by_cases ht : p.filename = tempFile
    · -- the tool has read an empty file: what it hashes is too short
      rw [if_pos ht, List.length_nil] at hlens
      have : fill f.length < 4096 := by
        rw [fill]
        split <;> omega
      have hz : f.length = 0 ∨ 4096 ≤ blockCeil f.length := by
        rw [blockCeil]
        omega
      rcases hz with hz | hz
      · rw [hz, fill] at hlens
        simp at hlens
        omega
      · omega
    · rw [if_neg ht] at hlens
      exact ⟨ht, hk.mp (by omega)⟩
  · rintro ⟨ht, hsz⟩
    rw [if_neg ht, show n - f.length = fill f.length by rw [hk.mpr hsz]; omega]

theorem verifyImageHash_ok {h : ImageHdr} {t : Session} : (verifyImageHash env h t).1 = .ok () ↔
    h.hash = env.sha256 (t.cxt.digest ++ List.replicate (t.cxt.hashPad h) 0xFF) := by
  rw [verifyImageHash]
  split
  · rename_i hh
    exact ⟨fun _ => hh, fun _ => rfl⟩
  · rename_i hh
    exact ⟨fun hc => (by cases hc), fun hc => absurd hc hh⟩

/-- The two hashes of the file of `p` for a partial upgrade differ if what is hashed does. -/
def Partition.NoCollision (sha256 : Bytes → Bytes) (dir : Dir) (p : Partition) : Prop :=
  ∀ f, p.file dir = some f → sha256 (p.toolData f) = sha256 (deviceData (p.entry sha256 1 dir).hdr.adjust f) →
    p.toolData f = deviceData (p.entry sha256 1 dir).hdr.adjust f

/-- The disk size that the upgrader goes by, for a partition with a file in a partial upgrade. -/
theorem padded_adjust {es : List Entry} (hr : Room env s es) (hp : ∀ e ∈ es, e.Packs)
    (he : (Entry.fromXml p).padded sha256 f ∈ es) :
    ∃ n, ((Entry.fromXml p).padded sha256 f).hdr.adjust.diskSize = n ∧ n < 2 ^ 32 ∧ blockCeil f.length ≤ n ∧
      n % 256 = 0 ∧ (n = blockCeil f.length ↔ p.sizeInKb * 1024 ≤ ↑(blockCeil f.length)) := by
  have hd := hr.adjust hp he
  have hw := (hp _ he).diskSize
  have hsz := hr.size _ he
  have hm := blockCeil_mod f.length
  have hdisk : ((Entry.fromXml p).padded sha256 f).diskSize = max (p.sizeInKb * 1024) ↑(blockCeil f.length) := by
    rw [padded_eq]
  rw [hdisk] at hd hw hsz
  obtain ⟨hw₁, hw₂⟩ := hw
  by_cases hid : ((Entry.fromXml p).padded sha256 f).imageId = ↑sblImgId
  · rw [if_pos hid] at hd
    exact ⟨_, hd, by omega, by omega, by omega, by omega⟩
  · rw [if_neg hid] at hd
    have hlt := hsz hid
    have hmod := blockCeil_mod (max (p.sizeInKb * 1024) ↑(blockCeil f.length)).toNat
    have hle := le_blockCeil (max (p.sizeInKb * 1024) ↑(blockCeil f.length)).toNat
    refine ⟨_, hd, hlt, by omega, by omega, by omega, ?_⟩
    intro hle'
    have hmax : (max (p.sizeInKb * 1024) ↑(blockCeil f.length)).toNat = blockCeil f.length := by omega
    rw [hmax, blockCeil]
    omega

theorem Made.hashes {xml : Xml} {out : Output} (hm : Made sha256 xml dir out) (hsha : ∀ b, (sha256 b).length = 32) :
    ∀ e ∈ out.descriptor.entries, e.hash.length = 32 := by
  intro e he
  rw [hm.entries] at he
  obtain ⟨q, -, rfl⟩ := List.mem_map.mp he
  exact Entry.length_finish hsha _ _ _

/-- The identity and the version of the upgrader's entry are those of the partition. -/
theorem adjust_fields (hpk : (p.entry sha256 format dir).Packs) :
    ((p.entry sha256 format dir).hdr.adjust.imageId : ℤ) = p.imageId ∧
      ((p.entry sha256 format dir).hdr.adjust.version : ℤ) = p.ver := by
  obtain ⟨hid, hver, -, -⟩ := entry_fields sha256 format dir p
  constructor
  · rw [ImageHdr.adjust_imageId, ← hid]
    exact Int.toNat_of_nonneg hpk.imageId.1
  · rw [ImageHdr.adjust_version, ← hver]
    exact Int.toNat_of_nonneg hpk.ver.1

/-- The name that the upgrader reads is that of the entry, where a zero byte comes behind its field. -/
theorem Made.imageFile_eq {xml : Xml} {out : Output} (hm : Made sha256 xml dir out)
    (hsha : ∀ b, (sha256 b).length = 32) {i : ℕ} (hp : xml.partitions[i]? = some p)
    (hz : (p.entry sha256 out.descriptor.format dir).filename.bytes.length < 128 ∨
      (p.entry sha256 out.descriptor.format dir).hdr.adjust.diskSize % 256 = 0) :
    imageFile out.file ((out.descriptor.entries.map Entry.hdr).map ImageHdr.adjust) i =
      (p.entry sha256 out.descriptor.format dir).filename.bytes.take 128 := by
  have hent : out.descriptor.entries[i]? = some (p.entry sha256 out.descriptor.format dir) := by
    rw [hm.entries, List.getElem?_map, hp]
    rfl
  have hget : ((out.descriptor.entries.map Entry.hdr).map ImageHdr.adjust)[i]? =
      some (p.entry sha256 out.descriptor.format dir).hdr.adjust := by
    rw [List.getElem?_map, List.getElem?_map, hent]
    rfl
  obtain ⟨body, hfile⟩ := hm.file
  have hname := imageFile_image (hm.hashes hsha) (out.descriptor.hash ++ body) _ hent hget hz
  rwa [← List.append_assoc, ← hfile] at hname

/-- A partition that takes space has a disk size for the upgrader too. -/
theorem padded_pos {n : ℕ} (h0 : ((Entry.fromXml p).padded sha256 f).diskSize ≠ 0) (hkb : 0 ≤ p.sizeInKb * 1024)
    (hle : blockCeil f.length ≤ n) (hk : n = blockCeil f.length ↔ p.sizeInKb * 1024 ≤ ↑(blockCeil f.length)) :
    0 < n := by
  have hnz : blockCeil f.length ≠ 0 ∨ p.sizeInKb * 1024 ≠ 0 := by
    rw [padded_eq] at h0
    simp only at h0
    omega
  by_contra hzero
  have hbz : blockCeil f.length = 0 := by omega
  have := hk.mp (by omega)
  omega

/-- In a partial upgrade the file passes exactly if the tool has hashed what the device hashes. -/
theorem padded_verified_iff (s : Session) (hf : p.file dir = some f)
    (hhash : ((Entry.fromXml p).padded env.sha256 f).hdr.adjust.hash = env.sha256 (p.toolData f))
    (hcol : env.sha256 (p.toolData f) = env.sha256 (deviceData ((Entry.fromXml p).padded env.sha256 f).hdr.adjust f) →
      p.toolData f = deviceData ((Entry.fromXml p).padded env.sha256 f).hdr.adjust f) :
    (∀ g, p.file dir = some g → ∀ t : Session, (t.cxt.format : ℤ) = 1 → t.cxt.digest = g →
      (verifyImageHash env ((Entry.fromXml p).padded env.sha256 f).hdr.adjust t).1 = .ok ()) ↔
      p.toolData f = deviceData ((Entry.fromXml p).padded env.sha256 f).hdr.adjust f := by
  have hpad : ∀ t : Session, (t.cxt.format : ℤ) = 1 → t.cxt.hashPad ((Entry.fromXml p).padded env.sha256 f).hdr.adjust =
      u32sub ((Entry.fromXml p).padded env.sha256 f).hdr.adjust.diskSize
        ((Entry.fromXml p).padded env.sha256 f).hdr.adjust.imageLength := by
    intro t ht
    exact if_pos (by simpa using ht)
  constructor
  · intro hall
    have := hall f hf { s with cxt := { s.cxt with format := 1, digest := f } } rfl rfl
    rw [verifyImageHash_ok, hpad _ rfl, hhash] at this
    exact hcol this
  · intro heq g hg t ht hdg
    rw [hf] at hg
    cases hg
    rw [verifyImageHash_ok, hpad t ht, hhash, hdg, heq, deviceData]

/-- Entry `i` is the partition `p` and its file passes, exactly if the partition is good for the format. -/
theorem matches_iff {out : Output} {xml : Xml} (hm : Made env.sha256 xml dir out) (hsha : ∀ b, (env.sha256 b).length = 32)
    (hr : Room env s out.descriptor.entries) (hc : out.descriptor.format = 1 → p.NoCollision env.sha256 dir) {i : ℕ}
    (hp : xml.partitions[i]? = some p) (h0 : (p.entry env.sha256 out.descriptor.format dir).diskSize ≠ 0) :
    Matches env out.descriptor.format dir out.file
        ((out.descriptor.entries.map Entry.hdr).map ImageHdr.adjust) i p
        (p.entry env.sha256 out.descriptor.format dir).hdr.adjust ↔
      (out.descriptor.format = 1 → ∀ f, p.file dir = some f →
        p.filename.bytes.length ≤ 128 ∧ p.filename ≠ tempFile ∧ p.sizeInKb * 1024 ≤ ↑(blockCeil f.length)) := by
  have hmem : p ∈ xml.partitions := List.mem_of_getElem? hp
  have hein : p.entry env.sha256 out.descriptor.format dir ∈ out.descriptor.entries := by
    rw [hm.entries]
    exact List.mem_map_of_mem hmem
  have hname := hm.imageFile_eq hsha hp
  obtain ⟨hid', hver'⟩ := adjust_fields (hm.packs.entries _ hein)
  have hlen : (p.entry env.sha256 out.descriptor.format dir).hdr.adjust.imageLength =
      (p.entry env.sha256 out.descriptor.format dir).imageLen.toNat := ImageHdr.adjust_imageLength _
  have hhash : (p.entry env.sha256 out.descriptor.format dir).hdr.adjust.hash =
      (p.entry env.sha256 out.descriptor.format dir).hash := ImageHdr.adjust_hash _
  rcases entry_cases env.sha256 out.descriptor.format (hm.files p hmem) with
    ⟨hf, hn, he⟩ | ⟨f, hf, h1, he⟩ | ⟨f, hf, h1, he⟩
  · -- no file: nothing to verify
    refine ⟨fun _ _ f hc => ?_, fun _ => ⟨hid', hver', ?_, ?_, fun f hc => ?_⟩⟩
    · rw [hf] at hc
      cases hc
    · rw [hlen, he, hf]
      rfl
    · rw [he] at hname
      rw [hname (.inl (by rw [show (Entry.fromXml p).filename = p.filename from rfl, hn]; decide)), Partition.listedName,
        show (Entry.fromXml p).filename.bytes = [] from hn, hn, ite_self]
      rfl
    · rw [hf] at hc
      cases hc
  · -- a partial upgrade
    rw [he] at hname hlen hhash hein h0
    obtain ⟨n, hd, hn, hle, hmod, hk⟩ := padded_adjust hr hm.packs.entries hein
    have hlen' : ((Entry.fromXml p).padded env.sha256 f).hdr.adjust.imageLength = f.length := by
      rw [hlen, padded_eq]
      rfl
    have hdata := toolData_eq_iff hn hle (padded_pos h0 (hm.sizes p hmem).1 hle hk) hk hd hlen'
    have hcol := hc h1 f hf
    rw [h1] at he
    rw [he] at hcol
    have hver := padded_verified_iff s hf (by rw [hhash, padded_eq]) hcol
    have hnm : imageFile out.file ((out.descriptor.entries.map Entry.hdr).map ImageHdr.adjust) i = p.listedName 1 ↔
        p.filename.bytes.length ≤ 128 := by
      rw [hname (.inr (by rw [hd]; exact hmod)), padded_eq, Partition.listedName, if_pos rfl]
      exact List.take_eq_self_iff _
    rw [h1, he]
    constructor
    · intro hmt _ g hg
      rw [hf] at hg
      cases hg
      exact ⟨hnm.mp hmt.name, hdata.mp (hver.mp hmt.verified)⟩
    · intro hgood
      obtain ⟨g₁, g₂⟩ := hgood rfl f hf
      rw [h1, he] at hid' hver'
      refine ⟨hid', hver', ?_, hnm.mpr g₁, hver.mpr (hdata.mpr g₂)⟩
      rw [hlen', hf]
      rfl
  · -- an all-in-one file
    rw [he] at hname hlen hhash hid' hver' ⊢
    refine ⟨fun _ hc => absurd hc h1, fun _ => ⟨hid', hver', ?_, ?_, ?_⟩⟩
    · rw [hlen, hf, appended_eq]
      rfl
    · rw [appended_eq] at hname
      rw [Partition.listedName, if_neg h1]
      exact hname (.inl (show 0 < 128 by decide))
    · intro g hg t ht hdg
      rw [hf] at hg
      cases hg
      have hpad : t.cxt.hashPad ((Entry.fromXml p).appended env.sha256 f).hdr.adjust = 0 :=
        if_neg (by intro hc; rw [hc] at ht; exact h1 ht.symm)
      rw [verifyImageHash_ok, hpad, hhash, hdg, appended_eq]
      simp only [List.replicate_zero, List.append_nil]

/-- The entries that the tool makes pass the checks of the upgrader exactly if all partitions take space. -/
theorem made_correct_iff {out : Output} {xml : Xml} (hm : Made env.sha256 xml dir out)
    (hnz : ∀ p ∈ xml.partitions, p.imageId ≠ 0 ∧ p.signature ≠ 0 ∧ p.hashType ≠ 0) :
    (∀ h ∈ out.descriptor.entries.map Entry.hdr, ¬h.Incorrect) ↔
      ∀ p ∈ xml.partitions, (p.entry env.sha256 out.descriptor.format dir).diskSize ≠ 0 := by
  have hent : out.descriptor.entries = xml.partitions.map (Partition.entry env.sha256 out.descriptor.format dir) := hm.entries
  rw [hent, List.map_map]
  simp only [List.mem_map, forall_exists_index, and_imp, forall_apply_eq_imp_iff₂, Function.comp]
  refine forall₂_congr fun p hp => ?_
  have hpk := hm.packs.entries (p.entry env.sha256 out.descriptor.format dir) (by rw [hent]; exact List.mem_map_of_mem hp)
  obtain ⟨hid, -, hsig, hht⟩ := entry_fields env.sha256 out.descriptor.format dir p
  obtain ⟨n₁, n₂, n₃⟩ := hnz p hp
  obtain ⟨hle, -⟩ := entry_sizes env.sha256 out.descriptor.format (hm.files p hp) (hm.sizes p hp)
  have w₁ := hpk.imageId.1
  have w₂ := hpk.signature.1
  have w₃ := hpk.hashType.1
  have w₄ := hpk.diskSize.1
  rw [hid] at w₁
  rw [hsig] at w₂
  rw [hht] at w₃
  simp only [ImageHdr.Incorrect, Entry.hdr, hid, hsig, hht]
  omega

section

variable {xml : Xml} {out : Output}

theorem Made.decode (hm : Made sha256 xml dir out) : ImageSetHdr.decode out.file =
    ⟨out.descriptor.signature.toNat, out.descriptor.version.toNat, out.descriptor.format.toNat,
      out.descriptor.imageLen.toNat, out.descriptor.entries.length⟩ := by
  obtain ⟨body, hbody⟩ := hm.file
  rw [hbody, List.append_assoc]
  exact decode_image hm.packs _

/-- The part-1 checks pass. -/
theorem Made.correct (hm : Made sha256 xml dir out) (hsha : ∀ b, (sha256 b).length = 32)
    (hn : xml.partitions.length ≤ fwUpgradeMaxImagesNum) : (ImageSetHdr.decode out.file).Correct := by
  obtain ⟨c₁, c₂, c₃⟩ := hm.checked
  have w₁ := hm.packs.format.1
  have w₂ := hm.packs.signature.1
  have hl := hm.imageLen
  rw [Descriptor.length_image (hm.hashes hsha)] at hl
  have hlen : out.descriptor.entries.length ≤ fwUpgradeMaxImagesNum := by
    rw [hm.entries, List.length_map]
    exact hn
  rw [hm.decode]
  simp only [imageSetHdrPart1Size, imageHdrSize] at hl
  refine ⟨⟨Nat.pos_of_ne_zero c₃, hlen⟩, ?_, ?_⟩
  · simp only
    omega
  · simp only [ImageSetHdr.hashOffset, imageSetHdrPart1Size, imageHdrSize, fwUpgradeHashLen]
    omega

/-- The file begins with the header. -/
theorem Made.take (hm : Made sha256 xml dir out) (hsha : ∀ b, (sha256 b).length = 32) :
    out.file.take (ImageSetHdr.decode out.file).length = out.descriptor.image ++ out.descriptor.hash ∧
      (ImageSetHdr.decode out.file).length ≤ out.file.length := by
  have hlen : (out.descriptor.image ++ out.descriptor.hash).length = out.descriptor.imageLen.toNat := by
    rw [hm.imageLen, List.length_append, hm.hash, hsha]
    rfl
  obtain ⟨body, hbody⟩ := hm.file
  rw [hm.decode, hbody, List.length_append, hlen]
  exact ⟨List.take_left' hlen, Nat.le_add_right _ _⟩

/-- The upgrader accepts the header exactly if all partitions take space. -/
theorem Made.acceptable_iff (hm : Made env.sha256 xml dir out) (hsha : ∀ b, (env.sha256 b).length = 32)
    (hnz : ∀ p ∈ xml.partitions, p.imageId ≠ 0 ∧ p.signature ≠ 0 ∧ p.hashType ≠ 0)
    (hr : Room env s out.descriptor.entries) :
    s.Acceptable env (out.descriptor.image ++ out.descriptor.hash) ↔
      ∀ p ∈ xml.partitions, (p.entry env.sha256 out.descriptor.format dir).diskSize ≠ 0 := by
  have hdec := decode_image hm.packs out.descriptor.hash
  have hoff : (ImageSetHdr.decode (out.descriptor.image ++ out.descriptor.hash)).hashOffset =
      out.descriptor.image.length := by
    rw [hdec, Descriptor.length_image (hm.hashes hsha)]
    rfl
  rw [← made_correct_iff hm hnz, Session.Acceptable, headerHashOk, hoff, List.drop_left, List.take_left, hdec,
    imageHdrs_image hm.packs (hm.hashes hsha)]
  refine ⟨fun h => h.2.2.1, fun h => ⟨?_, hr.canSet, h, hr.fits hm.packs.entries ?_⟩⟩
  · rw [hm.hash]
    exact List.take_of_length_le (Nat.le_of_eq (hsha _))
  · intro e he
    rw [hm.entries] at he
    obtain ⟨p, hp, rfl⟩ := List.mem_map.mp he
    exact (entry_sizes _ _ (hm.files p hp) (hm.sizes p hp)).1

end

end

/-- The upgrader takes over what the tool reports to have made, and gets what the descriptor says, exactly if every
    partition is good for the format. -/
theorem generated_agrees_iff (env : Env) (hsha : ∀ b, (env.sha256 b).length = 32) (s : Session) (xml : Xml) (dir : Dir)
    (out : Output) (hgen : generate env.sha256 xml dir = some out) (hn : xml.partitions.length ≤ fwUpgradeMaxImagesNum)
    (hnz : ∀ p ∈ xml.partitions, p.imageId ≠ 0 ∧ p.signature ≠ 0 ∧ p.hashType ≠ 0)
    (hr : Room env s out.descriptor.entries)
    (hc : out.descriptor.format = 1 → ∀ p ∈ xml.partitions, p.NoCollision env.sha256 dir) (c : Bytes) (cs : List Bytes)
    (hcs : ∀ b ∈ c :: cs, Chunk b) (h17 : imageSetHdrPart1Size ≤ c.length) (hfile : (c :: cs).flatten = out.file) :
    Agrees env s xml dir out (c :: cs) ↔ ∀ p ∈ xml.partitions, p.Good out.descriptor.format dir := by
  have hm := generate_ok hsha hgen
  have hacc := hm.acceptable_iff hsha hnz hr
  obtain ⟨htake, hle⟩ := hm.take hsha
  have hnum : (ImageSetHdr.decode out.file).numImages = out.descriptor.entries.length := by rw [hm.decode]
  have hhdrs := imageHdrs_image hm.packs (hm.hashes hsha) out.descriptor.hash
  have hspace : ∀ p ∈ xml.partitions, ((p.entry env.sha256 out.descriptor.format dir).diskSize ≠ 0 ↔
      p.sizeInKb ≠ 0 ∨ ∃ f, p.file dir = some f ∧ f ≠ []) :=
    fun p hp => (entry_sizes _ _ (hm.files p hp) (hm.sizes p hp)).2
  have hget : ∀ (i : ℕ) (p : Partition), xml.partitions[i]? = some p →
      ((out.descriptor.entries.map Entry.hdr).map ImageHdr.adjust)[i]? =
        some (p.entry env.sha256 out.descriptor.format dir).hdr.adjust := by
    intro i p hp
    rw [hm.entries]
    simp only [List.getElem?_map, hp, Option.map_some]
    rfl
  obtain ⟨o, hspec, hres⟩ := headerResult_long env s hcs h17
  rw [hfile] at hspec
  constructor
  · rintro ⟨hs, rest, hres', -, hall⟩
    cases hres.unique hres'
    cases hspec with
    | accepted _ _ ha =>
      rw [htake] at ha hall
      rw [hnum, hhdrs] at hall
      have hsp := hacc.mp ha
      intro p hp
      obtain ⟨i, hi⟩ := List.getElem?_of_mem hp
      have hmt := hall i p _ hi (hget i p hi)
      exact ⟨(hspace p hp).mp (hsp p hp),
        (matches_iff hm hsha hr (fun h1 => hc h1 p hp) hi (hsp p hp)).mp hmt⟩
  · intro hgood
    have hsp : ∀ p ∈ xml.partitions, (p.entry env.sha256 out.descriptor.format dir).diskSize ≠ 0 :=
      fun p hp => (hspace p hp).mpr (hgood p hp).space
    have ha := hacc.mpr hsp
    cases hspec with
    | incorrect hi => exact absurd (hm.correct hsha hn) hi
    | incomplete _ hl => exact absurd hle (Nat.not_le.mpr hl)
    | rejected _ _ hna =>
      rw [htake] at hna
      exact absurd ha hna
    | accepted _ _ _ =>
      refine ⟨_, _, hres, ?_, ?_⟩
      · rw [htake, hnum, hhdrs, hm.entries]
        simp only [List.length_map]
      · intro i p h hi hh'
        have hp := List.mem_of_getElem? hi
        rw [htake, hnum, hhdrs] at hh' ⊢
        rw [hget i p hi, Option.some.injEq] at hh'
        rw [← hh']
        exact (matches_iff hm hsha hr (fun h1 => hc h1 p hp) hi (hsp p hp)).mpr (hgood p hp).fits

/-! ### A partial upgrade with one image -/

/-- A folder with one file, of three bytes. -/
def oneFile : Dir := fun name => if name.bytes = [97] then some smallImage else none

/-- A partial upgrade with an APP partition of `kb` KB for the file. -/
def oneImage (kb : ℤ) : Xml := ⟨"fw_upgrade_img_descriptor",
  [.header ↑fwUpgradeMagicV1 1 1, .partition ⟨⟨[97], by decide⟩, 1, ↑appImgId, 1, kb, 1⟩]⟩

/-- SHA-256 of the file with `0xFF` up to 4096 bytes, and up to 8192. -/
def padded4096Hash : ℕ := 0x1626f2d39518d9f2cdc18eb5cc0f187d029bd9fad72ffe050c0dc04a34a60a88

def padded8192Hash : ℕ := 0xda7e9307825e60214b1288987ba257ce53544b0e5a9003f5bd17d91b97ddb9c0

/-- What the tool makes for a partition of `disk` bytes; `n` is the SHA-256 of the header. -/
def oneImageOut (disk : ℤ) (n : ℕ) : Output :=
  let d : Descriptor := ⟨↑fwUpgradeMagicV1, 1, 1, 233,
    [⟨1, ↑appImgId, 1, ⟨[97], by decide⟩, disk, 3, 1, hashValue padded4096Hash⟩], hashValue n⟩
  ⟨d, d.image ++ d.hash⟩

def out4 : Output := oneImageOut 4096 0x45afa710d0afd2c2fbe0df00cde97b66d78bf5dc1c0c238ccb4d3f07f7af6fea

def out8 : Output := oneImageOut 8192 0xe3f175a016a8f08a1358359543c7ae2e1b9172141a27e6482f461cfd0ddf0e1b

def oneImageEnv : Env := smallEnv
  [(out4.descriptor.image, 0x45afa710d0afd2c2fbe0df00cde97b66d78bf5dc1c0c238ccb4d3f07f7af6fea),
    (out8.descriptor.image, 0xe3f175a016a8f08a1358359543c7ae2e1b9172141a27e6482f461cfd0ddf0e1b),
    (smallImage ++ List.replicate 4093 0xFF, padded4096Hash), (smallImage ++ List.replicate 8189 0xFF, padded8192Hash)]

theorem oneImageEnv_sha256 (b : Bytes) : (oneImageEnv.sha256 b).length = 32 := by
  show (hashValue _).length = 32
  rw [hashValue, List.length_map, List.length_range]

/-- The small device with two blocks of trial memory. -/
def twoBlocks : Session :=
  { smallSession with cxt := { smallSession.cxt with trialMemStart := 24576, trialMemSize := 8192 } }

instance (s : Session) (info : FwdInfo) : Decidable (s.CanSet info) := inferInstanceAs (Decidable (_ ∧ _))

theorem room4 : Room oneImageEnv twoBlocks out4.descriptor.entries where
  canSet := by decide +kernel
  flash := by decide +kernel
  mem := by decide
  size := by decide +kernel
  sbl := ⟨1, 0x210000, 0x10000, by decide +kernel, by decide +kernel⟩
  app := by decide +kernel

theorem generated_agrees_one : Agrees oneImageEnv twoBlocks (oneImage 4) oneFile out4 [out4.file] := by
  refine (generated_agrees_iff oneImageEnv oneImageEnv_sha256 twoBlocks (oneImage 4) oneFile out4 (by decide +kernel)
    (by decide) (by decide) room4 ?_ _ _ (by decide +kernel) (by decide +kernel) (by decide +kernel)).mpr ?_
  · intro _ p hp f hf _
    cases List.mem_singleton.mp hp
    cases Option.some.inj hf
    rw [Partition.toolData, deviceData]
    congr 2
  · intro p hp
    cases List.mem_singleton.mp hp
    refine ⟨.inl (by decide), fun _ f hf => ?_⟩
    cases Option.some.inj hf
    decide

/-- With 8 KB for the file the tool hashes it with `0xFF` bytes up to 4096, the upgrader up to 8192: the file does not
    pass. -/
theorem larger_partition_fails :
    generate oneImageEnv.sha256 (oneImage 8) oneFile = some out8 ∧
      ¬Agrees oneImageEnv twoBlocks (oneImage 8) oneFile out8 [out8.file] := by
  refine ⟨by decide +kernel, ?_⟩
  have hacc : HeaderResult oneImageEnv (twoBlocks.receiving [out8.file])
      (.accepted (out8.descriptor.entries.map Entry.hdr) none) := ⟨2, by decide +kernel, by decide +kernel⟩
  rintro ⟨hs, rest, hres, -, hall⟩
  cases hacc.unique hres
  have hver := (hall 0 _ _ rfl rfl).verified smallImage rfl
    { twoBlocks with cxt := { twoBlocks.cxt with format := 1, digest := smallImage } } rfl rfl
  rw [verifyImageHash_ok] at hver
  exact absurd hver (by decide +kernel)

end Qcc730.Upgrade.Generator
