import Qcc730.HexFile.Records

/-! Hex files, written and read back.

    The parser and the Intel HEX definition differ in one multiplier: what an extended segment address counts for.
    The blocks cut into lines are therefore read at a place that depends on the multiplier alone, which is where
    they were if the addresses need no extended address or the record with the right multiplier was written. The
    type I8HEX has none, and it is kept up to and with the address 0x10000. -/

namespace Qcc730.Hex
open Lib Lib.Segment
open Nvm (Text fromHex intBase16)

/-! ### Reading records -/

/-- The data records, each from where it is read on: an extended segment address counts `seg` times, an extended
    linear address `lin` times, and the base so far is `base`. -/
def linesOf (seg lin : ℤ) : ℤ → List Record → List HexBlock
  | _, [] => []
  | base, r :: rs =>
    if r.command = 0 then ⟨base + r.address, r.data, .bytearray⟩ :: linesOf seg lin base rs
    else if r.command = 2 then linesOf seg lin (seg * beNum r.data) rs
    else if r.command = 4 then linesOf seg lin (lin * beNum r.data) rs
    else linesOf seg lin base rs

/-- The record of a line: the length, the address, the type, the data and a checksum. -/
def intelRecord : Text → Option Record
  | ':' :: digits =>
    match fromHex digits with
    | some (length :: high :: low :: type :: rest) =>
      if rest.length = length.toNat + 1 then some ⟨type.toNat, beNum [high, low], rest.take length.toNat⟩ else none
    | _ => none
  | _ => none

/-- The bytes of a file by the Intel HEX definition. No line that is written goes beyond a multiple of 64 KB. -/
def intelImage (text : Text) : Image UInt8 :=
  imageOf (linesOf 16 65536 0 ((((readLines [] text).map strip).filter (· ≠ [])).filterMap intelRecord))

variable {h : HexFile} {r : Record} {rs : List Record} {b : HexBlock} {bs ps : List HexBlock} {L : ℕ}
  {seg lin base cur a x : ℤ} {fileType : FileType}

theorem intelRecord_line (h : r.Fits) : intelRecord r.line = some r := by
  obtain ⟨hlen, hlow, hhigh, hcmd⟩ := h
  obtain ⟨command, address, data⟩ := r
  dsimp only at hlen hlow hhigh hcmd
  have hnum : (beNum (leBytes 2 address.toNat).reverse : ℤ) = address := by
    rw [beNum, List.reverse_reverse, leNum_leBytes _ (by omega)]
    omega
  simp only [leBytes, List.reverse_cons, List.reverse_nil, List.nil_append, List.cons_append] at hnum
  rw [Record.line, intelRecord, fromHex_hexText, lineData_eq]
  simp [leBytes, Nat.mod_eq_of_lt (show data.length < 256 by omega), Nat.mod_eq_of_lt (show command < 256 by omega)]
  exact hnum

/-! ### The lines of a block -/

/-- The lines of the bytes `rest` from `a` on. -/
def pieces (L : ℕ) : ℕ → ℤ → Bytes → List HexBlock
  | 0, _, _ => []
  | _, _, [] => []
  | fuel + 1, a, b :: rest =>
    let n := min L (65536 - a % 65536).toNat
    ⟨a, (b :: rest).take n, .bytearray⟩ :: pieces L fuel (a + n) ((b :: rest).drop n)

def allPieces (L : ℕ) (blocks : List HexBlock) : List HexBlock :=
  blocks.flatMap fun block => pieces L block.data.length block.start block.data

/-- The records of lines, and the extended address behind. -/
def recordsOf (fileType : FileType) : ℤ → List HexBlock → List (Except HexError Record) × ℤ
  | cur, [] => ([], cur)
  | cur, p :: ps =>
    let extAddr := p.start / 65536
    let ext := if extAddr ≠ cur ∧ fileType ≠ .i8hex then [extendedRecord fileType extAddr] else []
    let cur := if extAddr ≠ cur ∧ fileType ≠ .i8hex then extAddr else cur
    (ext ++ .ok ⟨0, p.start % 65536, p.data⟩ :: (recordsOf fileType cur ps).1, (recordsOf fileType cur ps).2)

theorem recordsOf_append {qs : List HexBlock} : recordsOf fileType cur (ps ++ qs) =
    ((recordsOf fileType cur ps).1 ++ (recordsOf fileType (recordsOf fileType cur ps).2 qs).1,
      (recordsOf fileType (recordsOf fileType cur ps).2 qs).2) := by
  induction ps generalizing cur with
  | nil => rfl
  | cons p ps ih => simp only [List.cons_append, recordsOf, ih, List.append_assoc]

theorem blockRecords_eq (hL : 1 ≤ L) {fuel : ℕ} {rest : Bytes} (hfuel : rest.length ≤ fuel) :
    blockRecords fileType L fuel a rest cur = some (recordsOf fileType cur (pieces L fuel a rest)) := by
  induction fuel generalizing a rest cur with
  | zero =>
    rw [List.length_eq_zero_iff.mp (Nat.le_zero.mp hfuel)]
    rfl
  | succ fuel ih =>
    cases rest with
    | nil => rfl
    | cons b rest =>
      have hn : 1 ≤ min L (65536 - a % 65536).toNat := by omega
      rw [blockRecords, ih]
      · rfl
      · rw [List.length_drop, List.length_cons] at *
        omega

theorem blocksRecords_eq (hL : 1 ≤ L) :
    blocksRecords fileType L bs cur = some (recordsOf fileType cur (allPieces L bs)).1 := by
  induction bs generalizing cur with
  | nil => rfl
  | cons b bs ih =>
    have hcons : allPieces L (b :: bs) = pieces L b.data.length b.start b.data ++ allPieces L bs := rfl
    rw [blocksRecords, blockRecords_eq hL le_rfl]
    dsimp only
    rw [ih, hcons, recordsOf_append]
    rfl

/-- A line lies between two multiples of 64 KB, is not empty, and lies within `a` and `e`. -/
def IsLine (L : ℕ) (a e : ℤ) (p : HexBlock) : Prop :=
  p.data ≠ [] ∧ p.data.length ≤ L ∧ p.start % 65536 + p.data.length ≤ 65536 ∧ a ≤ p.start ∧ p.stop ≤ e

theorem pieces_spec (hL : 1 ≤ L) {fuel : ℕ} {rest : Bytes} (hfuel : rest.length ≤ fuel) :
    (∀ p ∈ pieces L fuel a rest, IsLine L a (a + rest.length) p) ∧ InOrder 0 (pieces L fuel a rest) ∧
      imageOf (pieces L fuel a rest) = Image.ofList a rest := by
  induction fuel generalizing a rest with
  | zero =>
    rw [List.length_eq_zero_iff.mp (Nat.le_zero.mp hfuel)]
    exact ⟨by simp [pieces], List.Pairwise.nil, funext fun x => by simp [pieces]⟩
  | succ fuel ih =>
    cases rest with
    | nil => exact ⟨by simp [pieces], List.Pairwise.nil, funext fun x => by simp [pieces]⟩
    | cons b rest =>
      obtain ⟨n, hn⟩ : ∃ n, n = min L (65536 - a % 65536).toNat := ⟨_, rfl⟩
      have hlen : ((b :: rest).take n).length = min n (rest.length + 1) := by rw [List.length_take, List.length_cons]
      have hdrop : ((b :: rest).drop n).length = rest.length + 1 - n := by rw [List.length_drop, List.length_cons]
      have hl : (b :: rest).length = rest.length + 1 := rfl
      obtain ⟨hlines, hinOrder, himage⟩ := @ih (a + n) ((b :: rest).drop n) (by omega)
      rw [pieces, ← hn]
      refine ⟨?_, List.pairwise_cons.mpr ⟨fun q hq => ?_, hinOrder⟩, funext fun x => ?_⟩
      · rintro p (_ | ⟨_, hp⟩)
        · refine ⟨?_, ?_, ?_, le_rfl, ?_⟩
          · rw [← List.length_pos_iff]
            dsimp only
            omega
          · dsimp only
            omega
          · dsimp only
            omega
          · simp only [stop]
            omega
        · obtain ⟨h₁, h₂, h₃, h₄, h₅⟩ := hlines p hp
          have := List.length_pos_iff.mpr h₁
          have hstop : p.stop = p.start + p.data.length := rfl
          exact ⟨h₁, h₂, h₃, by omega, by omega⟩
      · obtain ⟨-, -, -, h₄, -⟩ := hlines q hq
        simp only [stop]
        omega
      · rw [imageOf_cons, himage, image, Image.ofList_take, Image.ofList_drop]
        dsimp only
        split_ifs with h₁ h₂ h₂
        · omega
        · rw [Option.or_none]
        · rfl
        · omega

theorem allPieces_spec (hL : 1 ≤ L) :
    (∀ p ∈ allPieces L bs, ∃ b ∈ bs, IsLine L b.start b.stop p) ∧ imageOf (allPieces L bs) = imageOf bs := by
  induction bs with
  | nil => exact ⟨by simp [allPieces], rfl⟩
  | cons b bs ih =>
    obtain ⟨hlines, -, himage⟩ := @pieces_spec L b.start hL b.data.length b.data le_rfl
    rw [allPieces, List.flatMap_cons]
    refine ⟨fun p hp => ?_, funext fun x => ?_⟩
    · rcases List.mem_append.mp hp with hp | hp
      · exact ⟨b, List.mem_cons_self .., hlines p hp⟩
      · obtain ⟨c, hc, hline⟩ := ih.1 p hp
        exact ⟨c, List.mem_cons_of_mem _ hc, hline⟩
    · rw [imageOf_append, himage, imageOf_cons, ← ih.2]
      rfl

theorem inOrder_allPieces (hL : 1 ≤ L) (hn : InOrder 0 bs) : InOrder 0 (allPieces L bs) := by
  induction bs with
  | nil => exact List.Pairwise.nil
  | cons b bs ih =>
    obtain ⟨hlines, hinOrder, -⟩ := @pieces_spec L b.start hL b.data.length b.data le_rfl
    obtain ⟨hb, hbs⟩ := List.pairwise_cons.mp hn
    rw [allPieces, List.flatMap_cons]
    refine List.pairwise_append.mpr ⟨hinOrder, ih hbs, fun p hp q hq => ?_⟩
    obtain ⟨-, -, -, -, hpe⟩ := hlines p hp
    obtain ⟨c, hc, -, -, -, hqs, -⟩ := (@allPieces_spec bs L hL).1 q hq
    have := hb c hc
    have hstop : b.stop = b.start + b.data.length := rfl
    omega

/-! ### What the lines are read as -/

/-- What an extended address counts for in a file of a type. -/
def multiplier (seg lin : ℤ) : FileType → ℤ
  | .i8hex => 0
  | .i16hex => seg
  | .i32hex => lin

/-- Where a line is read if the extended address counts `m` times. -/
def place (m : ℤ) (p : HexBlock) : HexBlock := ⟨m * (p.start / 65536) + p.start % 65536, p.data, .bytearray⟩

/-- A data record, or an extended address. -/
def Record.Plain (r : Record) : Prop :=
  r.Fits ∧ (r.command = 0 ∨ (r.command = 2 ∨ r.command = 4) ∧ r.data.length = 2)

theorem exists_extendedRecord (hft : fileType ≠ .i8hex) (h₁ : 0 ≤ a) (h₂ : a < 65536) :
    ∃ q, extendedRecord fileType a = .ok q ∧ q.Plain ∧ ∀ seg lin base rs,
      linesOf seg lin base (q :: rs) = linesOf seg lin (multiplier seg lin fileType * a) rs := by
  obtain ⟨data, hdata⟩ : ∃ data, packBE 2 a = .ok data := ⟨_, if_pos ⟨h₁, h₂⟩⟩
  obtain ⟨hnum, hlen⟩ := beNum_packBE hdata
  cases fileType with
  | i8hex => exact absurd rfl hft
  | i16hex =>
    refine ⟨⟨2, 0, data⟩, by simp [extendedRecord, writeMap, hdata], ?_, fun seg lin base rs => ?_⟩
    · exact ⟨⟨by dsimp only; omega, le_rfl, by simp, by simp⟩, .inr ⟨.inl rfl, hlen⟩⟩
    · simp [linesOf, multiplier, hnum]
  | i32hex =>
    refine ⟨⟨4, 0, data⟩, by simp [extendedRecord, writeMap, hdata], ?_, fun seg lin base rs => ?_⟩
    · exact ⟨⟨by dsimp only; omega, le_rfl, by simp, by simp⟩, .inr ⟨.inr rfl, hlen⟩⟩
    · simp [linesOf, multiplier, hnum]

/-- The records of lines are written, and the lines are read where the multiplier puts them. -/
theorem recordsOf_ok (hps : ∀ p ∈ ps, p.data.length ≤ 255 ∧ 0 ≤ p.start ∧ p.start < 2 ^ 32) :
    ∃ qs : List Record, (recordsOf fileType cur ps).1 = qs.map .ok ∧ (∀ q ∈ qs, q.Plain) ∧
      ∀ seg lin base, (fileType = .i8hex → base = 0) →
        (fileType ≠ .i8hex → cur = -1 ∨ base = multiplier seg lin fileType * cur) →
        linesOf seg lin base qs = ps.map (place (multiplier seg lin fileType)) := by
  induction ps generalizing cur with
  | nil => exact ⟨[], rfl, by simp, fun _ _ _ _ _ => rfl⟩
  | cons p ps ih =>
    obtain ⟨hlen, hlow, hhigh⟩ := hps p (List.mem_cons_self ..)
    have hps' := fun q hq => hps q (List.mem_cons_of_mem p hq)
    have hplain : (⟨0, p.start % 65536, p.data⟩ : Record).Plain :=
      ⟨⟨hlen, by dsimp only; omega, by dsimp only; omega, by simp⟩, .inl rfl⟩
    have hline : ∀ seg lin base rs, linesOf seg lin base (⟨0, p.start % 65536, p.data⟩ :: rs) =
        ⟨base + p.start % 65536, p.data, .bytearray⟩ :: linesOf seg lin base rs := fun _ _ _ _ => rfl
    rw [recordsOf]
    by_cases hext : p.start / 65536 ≠ cur ∧ fileType ≠ .i8hex
    · -- a new extended address
      obtain ⟨q, hq, hqplain, hread⟩ := exists_extendedRecord (a := p.start / 65536) hext.2 (by omega) (by omega)
      obtain ⟨qs, hqs, hqsplain, hlines⟩ := @ih (p.start / 65536) hps'
      refine ⟨q :: ⟨0, p.start % 65536, p.data⟩ :: qs, ?_, ?_, fun seg lin base h8 hbase => ?_⟩
      · simp only [if_pos hext, hq, hqs, List.map_cons, List.singleton_append]
      · rintro q' (_ | ⟨_, _ | ⟨_, hq'⟩⟩)
        · exact hqplain
        · exact hplain
        · exact hqsplain q' hq'
      · rw [hread, hline, hlines _ _ _ (fun h => absurd h hext.2) fun _ => .inr rfl]
        rfl
    · obtain ⟨qs, hqs, hqsplain, hlines⟩ := @ih cur hps'
      refine ⟨⟨0, p.start % 65536, p.data⟩ :: qs, ?_, ?_, fun seg lin base h8 hbase => ?_⟩
      · simp only [if_neg hext, hqs, List.map_cons, List.nil_append]
      · rintro q' (_ | ⟨_, hq'⟩)
        · exact hplain
        · exact hqsplain q' hq'
      · rw [hline, hlines _ _ _ h8 hbase, List.map_cons, place]
        congr 3
        rcases eq_or_ne fileType .i8hex with h | h
        · rw [h8 h, h, multiplier, zero_mul]
        · have hcur : p.start / 65536 = cur := not_not.mp fun hne => hext ⟨hne, h⟩
          rcases hbase h with hb | hb
          · omega
          · rw [hb, hcur]

/-! ### Parsing -/

theorem parseLine_line {p : Parsed} {f : Fields} (hp : p.endReached = false) (hr : r.Fits)
    (hf : f = ⟨r.data.length, r.address, r.command, hexText r.data⟩) : p.parseLine r.line = p.process f := by
  rw [Parsed.parseLine, if_neg (by rw [hp]; decide), readFields_line hr, hf]

theorem parseLine_plain {p : Parsed} (hp : p.endReached = false) (hr : r.Plain) :
    ∃ q : Parsed, p.parseLine r.line = .ok q ∧ q.start = p.start ∧ q.endReached = false ∧ ∀ rs,
      p.lineData ++ linesOf 65536 65536 p.extAddr (r :: rs) = q.lineData ++ linesOf 65536 65536 q.extAddr rs := by
  obtain ⟨hfits, hcmd⟩ := hr
  have hnum : ∀ bs : Bytes, bs.length = 2 → intBase16 (hexText bs) = some (beNum bs : ℤ) := fun bs hbs =>
    intBase16_hexText (by rintro rfl; cases hbs)
  rw [parseLine_line hp hfits rfl, Parsed.process]
  rcases hcmd with hcmd | ⟨hcmd | hcmd, hlen⟩
  · have hmap : parseMap (r.command : ℤ) = some (.i8hex, .data) := by rw [hcmd]; rfl
    rw [hmap]
    dsimp only
    rw [fromHex_hexText]
    refine ⟨_, rfl, p.withType_start _, (p.withType_endReached _).trans hp, fun rs => ?_⟩
    simp [linesOf, hcmd]
  · have hmap : parseMap (r.command : ℤ) = some (.i16hex, .extendedAddress) := by rw [hcmd]; rfl
    rw [hmap]
    dsimp only
    rw [if_neg (by omega), hnum _ hlen]
    refine ⟨_, rfl, p.withType_start _, (p.withType_endReached _).trans hp, fun rs => ?_⟩
    simp [linesOf, hcmd, mul_comm]
  · have hmap : parseMap (r.command : ℤ) = some (.i32hex, .extendedAddress) := by rw [hcmd]; rfl
    rw [hmap]
    dsimp only
    rw [if_neg (by omega), hnum _ hlen]
    refine ⟨_, rfl, p.withType_start _, (p.withType_endReached _).trans hp, fun rs => ?_⟩
    simp [linesOf, hcmd, mul_comm]

theorem parseLines_plain {p : Parsed} (hp : p.endReached = false) (hrs : ∀ r ∈ rs, r.Plain) (rest : List Text) :
    ∃ q : Parsed, q.start = p.start ∧ q.endReached = false ∧
      q.lineData = p.lineData ++ linesOf 65536 65536 p.extAddr rs ∧
      p.parseLines (rs.map Record.line ++ rest) = q.parseLines rest := by
  induction rs generalizing p with
  | nil => exact ⟨p, rfl, hp, (List.append_nil _).symm, rfl⟩
  | cons r rs ih =>
    obtain ⟨q₁, hq₁, hstart₁, hend₁, hdata₁⟩ := parseLine_plain hp (hrs r (List.mem_cons_self ..))
    obtain ⟨q, hstart, hend, hdata, hlines⟩ := ih hend₁ fun r hr => hrs r (List.mem_cons_of_mem _ hr)
    refine ⟨q, hstart.trans hstart₁, hend, by rw [hdata, hdata₁], ?_⟩
    rw [List.map_cons, List.cons_append, Parsed.parseLines, hq₁]
    exact hlines

/-- The last line of a file. -/
def endRecord : Record := ⟨1, 0, []⟩

theorem endRecord_fits : endRecord.Fits := by decide

theorem parseLines_end {p : Parsed} (hp : p.endReached = false) : ∃ q : Parsed, q.start = p.start ∧
    q.endReached = true ∧ q.lineData = p.lineData ∧ p.parseLines [endRecord.line] = .ok q := by
  have hmap : parseMap (endRecord.command : ℤ) = some (.i8hex, .endOfFile) := rfl
  rw [Parsed.parseLines, parseLine_line hp endRecord_fits rfl, Parsed.process, hmap]
  refine ⟨_, ?_, ?_, ?_, rfl⟩
  · exact p.withType_start _
  · rfl
  · exact p.withType_lineData _

/-- What the record of the start value is. -/
theorem startRecord_ok {s : ℤ} (h : startRecord fileType s = .ok r) : r.Fits ∧
    (r.command = 3 ∨ r.command = 5) ∧ r.data.length = 4 ∧ (beNum r.data : ℤ) = s ∧ fileType ≠ .i8hex ∧
      0 ≤ s ∧ s < 2 ^ 32 := by
  cases hdata : packBE 4 s with
  | error x => cases fileType <;> simp [startRecord, writeMap, hdata] at h
  | ok data =>
    obtain ⟨hnum, hlen⟩ := beNum_packBE hdata
    have hs : 0 ≤ s ∧ s < 256 ^ 4 := by
      by_contra hne
      rw [packBE, if_neg hne] at hdata
      cases hdata
    cases fileType <;> simp only [startRecord, writeMap, hdata, reduceCtorEq, Except.ok.injEq] at h
    · subst h
      exact ⟨⟨by dsimp only; omega, le_rfl, by simp, by simp⟩, .inl rfl, hlen, hnum, by simp, hs⟩
    · subst h
      exact ⟨⟨by dsimp only; omega, le_rfl, by simp, by simp⟩, .inr rfl, hlen, hnum, by simp, hs⟩

theorem exists_startRecord {s : ℤ} (hft : fileType ≠ .i8hex) (hs : 0 ≤ s ∧ s < 2 ^ 32) :
    ∃ r, startRecord fileType s = .ok r := by
  obtain ⟨data, hdata⟩ : ∃ data, packBE 4 s = .ok data := ⟨_, if_pos hs⟩
  cases fileType with
  | i8hex => exact absurd rfl hft
  | i16hex => exact ⟨⟨3, 0, data⟩, by simp [startRecord, writeMap, hdata]⟩
  | i32hex => exact ⟨⟨5, 0, data⟩, by simp [startRecord, writeMap, hdata]⟩

theorem parseLine_start {p : Parsed} {s : ℤ} (hp : p.endReached = false) (hstart : p.start = none)
    (h : startRecord fileType s = .ok r) : ∃ q : Parsed, q.start = some s ∧ q.endReached = false ∧
      q.lineData = p.lineData ∧ p.parseLine r.line = .ok q := by
  obtain ⟨hfits, hcmd, hlen, hnum, -⟩ := startRecord_ok h
  have hread : intBase16 (hexText r.data) = some s := by
    rw [intBase16_hexText (by rintro hnil; rw [hnil] at hlen; cases hlen), hnum]
  rw [parseLine_line hp hfits rfl, Parsed.process]
  rcases hcmd with hcmd | hcmd
  · have hmap : parseMap (r.command : ℤ) = some (.i16hex, .startAddress) := by rw [hcmd]; rfl
    rw [hmap]
    dsimp only
    rw [if_neg (by omega), if_neg (by rw [Parsed.withType_start, hstart]; exact not_not.mpr rfl), hread]
    refine ⟨_, ?_, ?_, ?_, rfl⟩
    · rfl
    · exact (p.withType_endReached _).trans hp
    · exact p.withType_lineData _
  · have hmap : parseMap (r.command : ℤ) = some (.i32hex, .startAddress) := by rw [hcmd]; rfl
    rw [hmap]
    dsimp only
    rw [if_neg (by omega), if_neg (by rw [Parsed.withType_start, hstart]; exact not_not.mpr rfl), hread]
    refine ⟨_, ?_, ?_, ?_, rfl⟩
    · rfl
    · exact (p.withType_endReached _).trans hp
    · exact p.withType_lineData _

/-! ### Merging lines -/

/-- The list that the loop makes is in normal form, whatever the lines are. -/
theorem normal_mergeLines {before : List HexBlock} {blocks : List HexBlock}
    (hn : Normal (before ++ [b])) (hne : ∀ p ∈ ps, p.data ≠ [])
    (h : mergeLines b.stop (before ++ [b]) ps = .ok blocks) : Normal blocks := by
  induction ps generalizing before b with
  | nil => exact Except.ok.inj h ▸ hn
  | cons p ps ih =>
    have hp := hne p (List.mem_cons_self ..)
    obtain ⟨hn₁, -, hcross⟩ := List.pairwise_append.mp hn.inOrder
    rw [mergeLines] at h
    split_ifs at h with hlt heq
    · rw [List.getLast?_concat] at h
      dsimp only at h
      rw [List.dropLast_concat] at h
      refine ih (b := { b with data := b.data ++ p.data }) ⟨List.pairwise_append.mpr ⟨hn₁, List.pairwise_singleton ..,
        fun c hc d hd => ?_⟩, fun c hc => ?_⟩ (fun q hq => hne q (List.mem_cons_of_mem _ hq)) ?_
      · rw [List.mem_singleton.mp hd]
        exact hcross c hc b (List.mem_singleton_self b)
      · rcases List.mem_append.mp hc with hc | hc
        · exact hn.nonempty c (List.mem_append_left _ hc)
        · rw [List.mem_singleton.mp hc]
          exact List.append_ne_nil_of_right_ne_nil _ hp
      · rw [← h]
        congr 1
        simp only [stop, List.length_append, Nat.cast_add, add_assoc]
    · refine ih ⟨List.pairwise_append.mpr ⟨hn.inOrder, List.pairwise_singleton .., fun c hc d hd => ?_⟩,
        fun c hc => ?_⟩ (fun q hq => hne q (List.mem_cons_of_mem _ hq)) h
      · rw [List.mem_singleton.mp hd]
        rcases List.mem_append.mp hc with hc | hc
        · have := hcross c hc b (List.mem_singleton_self b)
          have := @start_le_stop _ _ b
          omega
        · rw [List.mem_singleton.mp hc]
          omega
      · rcases List.mem_append.mp hc with hc | hc
        · exact hn.nonempty c hc
        · rw [List.mem_singleton.mp hc]
          exact hp

/-- Lines in order are joined where they touch. -/
theorem mergeLines_eq {before : List HexBlock} (hn : InOrder 0 (b :: ps)) :
    mergeLines b.stop (before ++ [b]) ps = .ok (before ++ join b ps) := by
  induction ps generalizing before b with
  | nil => rfl
  | cons p ps ih =>
    obtain ⟨hb, hps⟩ := List.pairwise_cons.mp hn
    have hbp := hb p (List.mem_cons_self ..)
    rw [mergeLines, if_neg (by omega), join]
    rcases eq_or_ne b.stop p.start with heq | hne
    · rw [if_pos heq.symm, if_pos heq, List.getLast?_concat]
      dsimp only
      rw [List.dropLast_concat, ← ih]
      · congr 1
        simp only [stop, List.length_append, Nat.cast_add, add_assoc]
      · obtain ⟨hp, hps⟩ := List.pairwise_cons.mp hps
        refine List.pairwise_cons.mpr ⟨fun c hc => ?_, hps⟩
        have := hp c hc
        simp only [stop, List.length_append] at heq this ⊢
        omega
    · rw [if_neg hne.symm, if_neg hne]
      rw [← stop, @ih p (before ++ [b]) hps, List.append_assoc]
      rfl

theorem normal_of_mergeLines {blocks : List HexBlock} (hps : ∀ p ∈ ps, p.data ≠ [] ∧ 0 ≤ p.start)
    (h : mergeLines (-1) [] ps = .ok blocks) : Normal blocks := by
  cases ps with
  | nil => exact Except.ok.inj h ▸ ⟨List.Pairwise.nil, by simp⟩
  | cons p ps =>
    obtain ⟨hne, hstart⟩ := hps p (List.mem_cons_self ..)
    rw [mergeLines, if_neg (by omega), if_neg (by omega)] at h
    refine @normal_mergeLines p ps [] blocks ⟨List.pairwise_singleton .., fun c hc => ?_⟩
      (fun q hq => (hps q (List.mem_cons_of_mem _ hq)).1) h
    rw [List.mem_singleton.mp hc]
    exact hne

theorem mergeLines_of_inOrder (hps : ∀ p ∈ ps, 0 ≤ p.start) (hn : InOrder 0 ps) :
    mergeLines (-1) [] ps = .ok (joinTouching ps) := by
  cases ps with
  | nil => rfl
  | cons p ps =>
    have hstart := hps p (List.mem_cons_self ..)
    rw [mergeLines, if_neg (by omega), if_neg (by omega)]
    exact @mergeLines_eq p ps [] hn

/-! ### A file that was written -/

/-- The data lie from 0 up to 2^32. -/
def InRange (h : HexFile) : Prop := ∀ b ∈ h.blocks, 0 ≤ b.start ∧ b.stop ≤ 2 ^ 32

instance : Decidable (InRange h) := inferInstanceAs (Decidable (∀ b ∈ h.blocks, _))

/-- The call returns, and the file that it has written is parsed to the same blocks and the same start value. -/
def Restored (h : HexFile) (lineLength : ℕ) : Prop :=
  ∃ text g, h.writeHex lineLength = some (.ok text) ∧ parseFile text = .ok g ∧
    g.blocks.map content = h.blocks.map content ∧ g.start = h.start

/-- A file that is written has the bytes of the map by the Intel HEX definition. -/
def ReadAlike (h : HexFile) (lineLength : ℕ) : Prop :=
  ∀ text, h.writeHex lineLength = some (.ok text) → intelImage text = h.image

/-- The blocks are in order, not empty, and apart; the start value is one of 32 bits, which a file of type I8HEX
    cannot have; the data of such a file do not end at 0x10000, and those of a file of type I16HEX end before. -/
def Writable (h : HexFile) : Prop :=
  Normal h.blocks ∧
    (∀ s ∈ h.start, 0 ≤ s ∧ s < 2 ^ 32 ∧ (h.fileType = .i8hex → h.endAddress > 0x10000)) ∧
    (h.fileType = .i8hex → h.endAddress ≠ 0x10000) ∧ (h.fileType = .i16hex → h.endAddress < 0x10000)

theorem linesOf_append {tail : List Record} (ht : ∀ r ∈ tail, r.command ≠ 0 ∧ r.command ≠ 2 ∧ r.command ≠ 4) :
    linesOf seg lin base (rs ++ tail) = linesOf seg lin base rs := by
  induction rs generalizing base with
  | nil =>
    rw [List.nil_append]
    induction tail generalizing base with
    | nil => rfl
    | cons r tail ih =>
      obtain ⟨h₀, h₂, h₄⟩ := ht r (List.mem_cons_self ..)
      have hnil : linesOf seg lin base [] = [] := rfl
      rw [hnil, linesOf, if_neg h₀, if_neg h₂, if_neg h₄, ih fun q hq => ht q (List.mem_cons_of_mem _ hq)]
      rfl
  | cons r rs ih => simp only [List.cons_append, linesOf, ih]

/-- The records of the start value in a file. -/
def StartRecords (h : HexFile) (rs : List Record) : Prop :=
  h.start = none ∧ rs = [] ∨ ∃ s r, h.start = some s ∧ rs = [r] ∧ startRecord h.writtenType s = .ok r

theorem StartRecords.fits (hs : StartRecords h rs) :
    ∀ r ∈ rs, r.Fits ∧ r.command ≠ 0 ∧ r.command ≠ 2 ∧ r.command ≠ 4 := by
  rcases hs with ⟨-, rfl⟩ | ⟨s, q, -, rfl, hq⟩
  · simp
  · obtain ⟨hfits, hcmd, -⟩ := startRecord_ok hq
    intro r hr
    rw [List.mem_singleton.mp hr]
    exact ⟨hfits, by omega⟩

/-- The lines that `write_hex` writes, and the text of them if there is one. -/
theorem writeHex_spec (h₁ : 1 ≤ L) (h₂ : L ≤ 255) (hr : InRange h) :
    ∃ qs : List Record, (∀ q ∈ qs, q.Plain) ∧
      (∀ seg lin, linesOf seg lin 0 qs = (allPieces L h.blocks).map (place (multiplier seg lin h.writtenType))) ∧
      ∀ text, h.writeHex L = some (.ok text) ↔ ∃ rs, StartRecords h rs ∧
        text = (qs ++ (rs ++ [endRecord])).flatMap fun q => q.line ++ ['\n'] := by
  obtain ⟨qs, hqs, hplain, hlines⟩ := @recordsOf_ok (allPieces L h.blocks) (-1) h.writtenType fun p hp => by
    obtain ⟨b, hb, -, hlen, -, hstart, hstop⟩ := (allPieces_spec h₁).1 p hp
    obtain ⟨hb₀, hb₁⟩ := hr b hb
    have hne := start_lt_stop_iff.mpr ((allPieces_spec h₁).1 p hp).choose_spec.2.1
    omega
  refine ⟨qs, hplain, fun seg lin => hlines seg lin 0 (fun _ => rfl) fun _ => .inl rfl, fun text => ?_⟩
  have hall : ∀ rs, StartRecords h rs → writeLines ((qs ++ (rs ++ [endRecord])).map .ok) =
      .ok ((qs ++ (rs ++ [endRecord])).flatMap fun q => q.line ++ ['\n']) := fun rs hs =>
    writeLines_ok_iff.mpr ⟨_, rfl, fun q hq => by
      rcases List.mem_append.mp hq with hq | hq
      · exact (hplain q hq).1
      rcases List.mem_append.mp hq with hq | hq
      · exact (hs.fits q hq).1
      · rw [List.mem_singleton.mp hq]
        exact endRecord_fits, rfl⟩
  rw [HexFile.writeHex, HexFile.records, blocksRecords_eq h₁, hqs, Option.map_some, Option.map_some, Option.some.injEq]
  cases hstart : h.start with
  | none =>
    have hs : StartRecords h [] := .inl ⟨hstart, rfl⟩
    have hmap : qs.map Except.ok ++ [] ++ [.ok ⟨1, 0, []⟩] =
        ((qs ++ ([] ++ [endRecord])).map .ok : List (Except HexError Record)) := by
      simp [endRecord]
    rw [hmap, hall [] hs, Except.ok.injEq]
    constructor
    · rintro rfl
      exact ⟨[], hs, rfl⟩
    · rintro ⟨rs, ⟨-, rfl⟩ | ⟨s, r, hsome, -⟩, rfl⟩
      · rfl
      · rw [hstart] at hsome
        cases hsome
  | some s =>
    cases hrec : startRecord h.writtenType s with
    | error x =>
      refine iff_of_false (fun hok => ?_) ?_
      · obtain ⟨zs, hzs, -⟩ := writeLines_ok_iff.mp hok
        have hmem : Except.error x ∈ (zs.map .ok : List (Except HexError Record)) := by
          rw [← hzs]
          simp [hrec]
        simp at hmem
      · rintro ⟨rs, ⟨hnone, -⟩ | ⟨s', r, hsome, -, hok⟩, -⟩
        · rw [hstart] at hnone
          cases hnone
        · rw [hstart] at hsome
          obtain rfl := Option.some.inj hsome
          rw [hrec] at hok
          cases hok
    | ok r =>
      have hs : StartRecords h [r] := .inr ⟨s, r, hstart, rfl, hrec⟩
      have hmap : qs.map Except.ok ++ [.ok r] ++ [.ok ⟨1, 0, []⟩] =
          ((qs ++ ([r] ++ [endRecord])).map .ok : List (Except HexError Record)) := by
        simp [endRecord]
      dsimp only
      rw [hrec, hmap, hall [r] hs, Except.ok.injEq]
      constructor
      · rintro rfl
        exact ⟨[r], hs, rfl⟩
      · rintro ⟨rs, ⟨hnone, -⟩ | ⟨s', r', hsome, rfl, hok⟩, rfl⟩
        · rw [hstart] at hnone
          cases hnone
        · rw [hstart] at hsome
          obtain rfl := Option.some.inj hsome
          rw [hrec] at hok
          obtain rfl := Except.ok.inj hok
          rfl

/-- A file that was written, as the parser and as the Intel HEX definition read it. -/
theorem read_written (h₁ : 1 ≤ L) (h₂ : L ≤ 255) (hr : InRange h) {text : Text}
    (hw : h.writeHex L = some (.ok text)) :
    (∃ rs, StartRecords h rs) ∧
      intelImage text = imageOf ((allPieces L h.blocks).map (place (multiplier 16 65536 h.writtenType))) ∧
      ∃ type, parseFile text =
        match mergeLines (-1) [] (sort ((allPieces L h.blocks).map (place (multiplier 65536 65536 h.writtenType)))) with
        | .error x => .error x
        | .ok blocks => .ok ⟨blocks, type, h.start⟩ := by
  obtain ⟨qs, hplain, hlines, hiff⟩ := writeHex_spec h₁ h₂ hr
  obtain ⟨rs, hs, rfl⟩ := (hiff text).mp hw
  have htail : ∀ r ∈ rs ++ [endRecord], r.Fits ∧ r.command ≠ 0 ∧ r.command ≠ 2 ∧ r.command ≠ 4 := fun r hr => by
    rcases List.mem_append.mp hr with hr | hr
    · exact hs.fits r hr
    · rw [List.mem_singleton.mp hr]
      exact ⟨endRecord_fits, by decide⟩
  refine ⟨⟨rs, hs⟩, ?_, ?_⟩
  · have hrecords : ((qs ++ (rs ++ [endRecord])).map Record.line).filterMap intelRecord = qs ++ (rs ++ [endRecord]) := by
      rw [List.filterMap_map]
      refine (List.filterMap_congr fun r hr => ?_).trans List.filterMap_some
      rcases List.mem_append.mp hr with hr | hr
      · exact intelRecord_line (hplain r hr).1
      · exact intelRecord_line (htail r hr).1
    rw [intelImage, lines_of_text, hrecords, linesOf_append fun r hr => (htail r hr).2, hlines]
  · obtain ⟨q, hstart, hend, hdata, hparse⟩ := parseLines_plain (p := ⟨.i8hex, none, false, 0, []⟩) rfl hplain
      ((rs ++ [endRecord]).map Record.line)
    rw [List.nil_append, hlines] at hdata
    obtain ⟨q', hstart', hend', hdata', hparse'⟩ : ∃ q' : Parsed, q'.start = h.start ∧ q'.endReached = true ∧
        q'.lineData = q.lineData ∧ q.parseLines ((rs ++ [endRecord]).map Record.line) = .ok q' := by
      rcases hs with ⟨hnone, rfl⟩ | ⟨s, r, hsome, rfl, hrec⟩
      · obtain ⟨q', h₁, h₂, h₃, h₄⟩ := parseLines_end hend
        exact ⟨q', h₁.trans (hstart.trans hnone.symm), h₂, h₃, h₄⟩
      · obtain ⟨q₁, h₁, h₂, h₃, h₄⟩ := parseLine_start hend hstart hrec
        obtain ⟨q', h₅, h₆, h₇, h₈⟩ := parseLines_end h₂
        refine ⟨q', h₅.trans (h₁.trans hsome.symm), h₆, h₇.trans h₃, ?_⟩
        rw [List.map_append, List.map_singleton, List.singleton_append, Parsed.parseLines, h₄]
        exact h₈
    refine ⟨q'.fileType, ?_⟩
    rw [parseFile, lines_of_text, List.map_append, hparse, hparse']
    dsimp only
    rewrite [if_neg (by rw [hend']; decide), hdata', hdata, hstart']
    rfl

theorem image_dom_end (hn : Normal h.blocks) (hne : h.blocks ≠ []) :
    h.image h.endAddress ≠ none ∧ ∀ x, h.image x ≠ none → x ≤ h.endAddress := by
  cases hlast : h.blocks.getLast? with
  | none => exact absurd (List.getLast?_eq_none_iff.mp hlast) hne
  | some last =>
    obtain ⟨hmem, hle⟩ := hn.stop_le_last hlast
    have hpos := start_lt_stop_iff.mpr (hn.nonempty last hmem)
    have hend : h.endAddress = last.stop - 1 := by rw [HexFile.endAddress, hlast]
    rw [hend]
    refine ⟨imageOf_ne_none_iff.mpr ⟨last, hmem, by omega, by omega⟩, fun x hx => ?_⟩
    obtain ⟨b, hb, -, hlt⟩ := imageOf_ne_none_iff.mp hx
    have := hle b hb
    omega

/-- No line is read at the last address of a file, if the multiplier is less than 64 KB and the last line needs an
    extended address. -/
theorem place_below {m : ℤ} {p : HexBlock} {e : ℤ} (hm' : m < 65536) (hp : 0 ≤ p.start)
    (hline : p.start % 65536 + p.data.length ≤ 65536) (hstop : p.stop ≤ e + 1) (he : 65536 ≤ e) :
    (place m p).stop ≤ e := by
  have hp' : (place m p).stop = m * (p.start / 65536) + p.start % 65536 + p.data.length := rfl
  have hstop' : p.stop = p.start + p.data.length := rfl
  rcases eq_or_ne (p.start / 65536) 0 with h0 | h0
  · rw [hp', h0, mul_zero]
    omega
  · have h1 : 1 ≤ p.start / 65536 := by omega
    have hmul : m * (p.start / 65536) + (p.start / 65536) ≤ 65536 * (p.start / 65536) := by
      nlinarith
    omega

theorem map_place_eq {m : ℤ} (h : ∀ p ∈ ps, p.tag = .bytearray ∧ (m = 65536 ∨ 0 ≤ p.start ∧ p.start < 65536)) :
    ps.map (place m) = ps := by
  refine (List.map_congr_left fun p hp => ?_).trans (List.map_id ps)
  obtain ⟨s, d, k⟩ := p
  obtain ⟨rfl, hs⟩ := h _ hp
  rw [place, id]
  congr 1
  dsimp only at hs ⊢
  rcases hs with rfl | hs
  · omega
  · rw [show s / 65536 = 0 by omega]
    omega

theorem tag_of_mem_pieces {fuel : ℕ} {rest : Bytes} {p : HexBlock} (hp : p ∈ pieces L fuel a rest) :
    p.tag = .bytearray := by
  induction fuel generalizing a rest with
  | zero => cases hp
  | succ fuel ih =>
    cases rest with
    | nil => cases hp
    | cons b rest =>
      rcases List.mem_cons.mp hp with rfl | hp
      · rfl
      · exact ih hp

theorem tag_of_mem_allPieces {p : HexBlock} (hp : p ∈ allPieces L bs) : p.tag = .bytearray := by
  obtain ⟨b, -, hp⟩ := List.mem_flatMap.mp hp
  exact tag_of_mem_pieces hp

/-- The normal form depends on the starts and the bytes alone. -/
theorem normal_of_content {cs : List HexBlock} (h : bs.map content = cs.map content) (hn : Normal bs) : Normal cs := by
  have hiff : ∀ l : List HexBlock, Normal l ↔
      (l.map content).Pairwise (fun a b => a.1 + (a.2.length : ℤ) + 1 ≤ b.1) ∧ ∀ c ∈ l.map content, c.2 ≠ [] := fun l => by
    rw [List.pairwise_map, List.forall_mem_map]
    exact ⟨fun h => ⟨h.inOrder, h.nonempty⟩, fun h => ⟨h.1, h.2⟩⟩
  rw [hiff, ← h, ← hiff]
  exact hn

theorem stop_le_end (hn : Normal h.blocks) (hb : b ∈ h.blocks) : b.stop ≤ h.endAddress + 1 := by
  cases hlast : h.blocks.getLast? with
  | none =>
    rw [List.getLast?_eq_none_iff.mp hlast] at hb
    cases hb
  | some last =>
    have := (hn.stop_le_last hlast).2 b hb
    have hend : h.endAddress = last.stop - 1 := by rw [HexFile.endAddress, hlast]
    omega

/-- With a multiplier that is too small the byte at the last address is not read. -/
theorem not_readAlike {m : ℤ} (h₁ : 1 ≤ L) (hr : InRange h) (hn : Normal h.blocks) (hm' : m < 65536)
    (he : 65536 ≤ h.endAddress) : imageOf ((allPieces L h.blocks).map (place m)) ≠ h.image := by
  intro himage
  have hne : h.blocks ≠ [] := by
    intro hnil
    simp [HexFile.endAddress, hnil] at he
  have hx := (image_dom_end hn hne).1
  rw [← himage] at hx
  obtain ⟨q, hq, -, hlt⟩ := imageOf_ne_none_iff.mp hx
  obtain ⟨p, hp, rfl⟩ := List.mem_map.mp hq
  obtain ⟨b, hb, -, -, hline, hstart, hstop⟩ := (allPieces_spec h₁).1 p hp
  have := (hr b hb).1
  have := stop_le_end hn hb
  have := place_below (e := h.endAddress) hm' (by omega) hline (by omega) he
  omega

/-- For every file whose data lie below 2^32 and every line length: the file comes back as it was, and reads the same
    by the Intel HEX definition, if and only if it is writable. -/
theorem hex_round_trip_iff (h₁ : 1 ≤ L) (h₂ : L ≤ 255) (hr : InRange h) :
    Restored h L ∧ ReadAlike h L ↔ Writable h := by
  have hpieces := (@allPieces_spec h.blocks L h₁).1
  constructor
  · rintro ⟨⟨text, g, hw, hg, hblocks, -⟩, halike⟩
    obtain ⟨⟨rs, hs⟩, hintel, type, hparse⟩ := read_written h₁ h₂ hr hw
    have hn : Normal h.blocks := by
      rw [hg] at hparse
      cases hmerge : mergeLines (-1) []
          (sort ((allPieces L h.blocks).map (place (multiplier 65536 65536 h.writtenType)))) with
      | error x => rw [hmerge] at hparse; cases hparse
      | ok blocks =>
        rw [hmerge] at hparse
        obtain rfl := Except.ok.inj hparse
        refine normal_of_content hblocks (normal_of_mergeLines (fun q hq => ?_) hmerge)
        obtain ⟨p, hp, rfl⟩ := List.mem_map.mp (mem_sort.mp hq)
        obtain ⟨b, hb, hne, -, -, hstart, -⟩ := hpieces p hp
        have := (hr b hb).1
        refine ⟨hne, ?_⟩
        have hmul : 0 ≤ multiplier 65536 65536 h.writtenType * (p.start / 65536) :=
          mul_nonneg (by cases h.writtenType <;> decide) (by omega)
        rw [place]
        dsimp only
        omega
    have hread := (halike text hw).symm.trans hintel
    refine ⟨hn, ?_, fun h8 hend => ?_, fun h16 => ?_⟩
    · intro s hsome
      rcases hs with ⟨hnone, -⟩ | ⟨s', r, hsome', -, hrec⟩
      · rw [hnone] at hsome
        cases hsome
      · obtain rfl : s' = s := Option.some.inj (hsome'.symm.trans hsome)
        obtain ⟨-, -, -, -, hwritten, hs₀, hs₁⟩ := startRecord_ok hrec
        refine ⟨hs₀, hs₁, fun h8 => ?_⟩
        by_contra hle
        exact hwritten (by rw [HexFile.writtenType, if_neg fun hand => hle hand.2, h8])
    · have hwritten : h.writtenType = .i8hex := by
        rw [HexFile.writtenType, if_neg fun hand => absurd hand.2 (by omega), h8]
      rw [hwritten] at hread
      exact not_readAlike h₁ hr hn (by decide) (by omega) hread.symm
    · by_contra hle
      have hwritten : h.writtenType = .i16hex := by
        rw [HexFile.writtenType, if_neg fun hand => absurd (h16.symm.trans hand.1) (by decide), h16]
      rw [hwritten] at hread
      exact not_readAlike h₁ hr hn (by decide) (by omega) hread.symm
  · rintro ⟨hn, hstart, h8, h16⟩
    have hlow : ∀ p ∈ allPieces L h.blocks, 0 ≤ p.start ∧ p.start ≤ h.endAddress := fun p hp => by
      obtain ⟨b, hb, hne, -, -, hle, hstop⟩ := hpieces p hp
      have := (hr b hb).1
      have := stop_le_end hn hb
      have := start_lt_stop_iff.mpr hne
      omega
    have hplace : ∀ seg, (allPieces L h.blocks).map (place (multiplier seg 65536 h.writtenType)) =
        allPieces L h.blocks := fun seg => by
      refine map_place_eq fun p hp => ⟨tag_of_mem_allPieces hp, ?_⟩
      have hp := hlow p hp
      rw [HexFile.writtenType]
      split_ifs with hbig
      · exact .inl rfl
      · cases htype : h.fileType with
        | i8hex =>
          have := h8 htype
          have : ¬h.endAddress > 65536 := fun hgt => hbig ⟨htype, hgt⟩
          exact .inr ⟨hp.1, by omega⟩
        | i16hex =>
          have := h16 htype
          exact .inr ⟨hp.1, by omega⟩
        | i32hex => exact .inl rfl
    obtain ⟨rs, hs⟩ : ∃ rs, StartRecords h rs := by
      cases hsome : h.start with
      | none => exact ⟨[], .inl ⟨hsome, rfl⟩⟩
      | some s =>
        obtain ⟨hs₀, hs₁, hbig⟩ := hstart s hsome
        have hwritten : h.writtenType ≠ .i8hex := by
          rw [HexFile.writtenType]
          split_ifs with hand
          · decide
          · exact fun h8 => hand ⟨h8, hbig h8⟩
        obtain ⟨r, hr⟩ := exists_startRecord hwritten ⟨hs₀, hs₁⟩
        exact ⟨[r], .inr ⟨s, r, hsome, rfl, hr⟩⟩
    obtain ⟨qs, -, -, hiff⟩ := writeHex_spec h₁ h₂ hr
    have hw := (hiff _).mpr ⟨rs, hs, rfl⟩
    have himage := (@allPieces_spec h.blocks L h₁).2
    refine ⟨?_, fun text hw => ?_⟩
    · obtain ⟨-, -, type, hparse⟩ := read_written h₁ h₂ hr hw
      have hinOrder := @inOrder_allPieces h.blocks L h₁ (hn.inOrder.imp fun hab => by omega)
      rw [hplace, sort_eq hinOrder, mergeLines_of_inOrder (fun p hp => (hlow p hp).1) hinOrder] at hparse
      refine ⟨_, _, hw, hparse, ?_, rfl⟩
      refine Normal.ext (normal_of_mergeLines (fun p hp => ?_) (mergeLines_of_inOrder
        (fun p hp => (hlow p hp).1) hinOrder)) hn ?_
      · obtain ⟨b, hb, hne, -⟩ := hpieces p hp
        exact ⟨hne, (hlow p hp).1⟩
      · rw [← himage]
        cases allPieces L h.blocks with
        | nil => rfl
        | cons p ps => exact imageOf_join
    · obtain ⟨-, hintel, -⟩ := read_written h₁ h₂ hr hw
      rw [hintel, hplace, himage]
      rfl

/-- A file whose data cross the first multiple of 64 KB, with a start value. -/
theorem hex_round_trip_across :
    Restored ⟨[⟨0xFFFF, [1, 2, 3], .bytearray⟩], .i8hex, some 5⟩ 16 ∧
      ReadAlike ⟨[⟨0xFFFF, [1, 2, 3], .bytearray⟩], .i8hex, some 5⟩ 16 := by
  refine (hex_round_trip_iff (by decide) (by decide) (by decide)).mpr ⟨by decide, ?_, by decide, by decide⟩
  intro s hs
  obtain rfl := Option.some.inj hs
  decide

/-- One byte, and the start value removed: the file is not written. -/
theorem removed_start_not_written :
    ¬∀ (h : HexFile) (L : ℕ), 1 ≤ L → L ≤ 255 → InRange h → Restored h L ∧ ReadAlike h L := by
  intro hall
  obtain ⟨text, g, hw, -⟩ := (hall (HexFile.removeStart ⟨[⟨0, [1], .bytearray⟩], .i8hex, none⟩) 16 (by decide)
    (by decide) (by decide)).1
  have hraised : HexFile.writeHex (HexFile.removeStart ⟨[⟨0, [1], .bytearray⟩], .i8hex, none⟩) 16 =
      some (.error .keyError) := rfl
  rw [hraised] at hw
  cases hw

end Qcc730.Hex
