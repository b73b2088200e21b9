import Qcc730.FwdTool.Descriptor

/-! `compute_start_block`: where the partitions go.

    A partition with a start block of its own stays there, and one without goes to the greatest end before it. The
    variable for the next start begins as the quotient of the tables' bytes by the block size, which is a `float`
    in Python 3, so a first partition without a start block makes `update_start_block` raise. Behind a first
    partition that has one the starts are integers. Neither they nor the overlap test know of the blocks of the
    tables, and the test passes over a partition with the same blocks, in another table or in the same one. -/

namespace Qcc730.FwdTool
open Lib

/-! ### The source -/

/-- The partition with its start block, and the start block. -/
def Entry.settle (e : Entry) (start : Number) : Except PyError (Entry × ℤ) :=
  match e.startBlock with
  | none => e.updateStartBlock start
  | some s => .ok (e, s)

/-- The inner loop. `start` is `start_block` and `highest` is `highest_end`. -/
def settleEntries : List Entry → Number → ℤ → Except PyError (List Entry × Number × ℤ)
  | [], start, highest => .ok ([], start, highest)
  | e :: es, start, highest =>
    match e.settle start with
    | .error x => .error x
    | .ok (e, s) =>
      let currEnd := s + e.getSizeInBlock
      let highest := if currEnd > highest then currEnd else highest
      match settleEntries es (.int highest) highest with
      | .error x => .error x
      | .ok (es, r) => .ok (e :: es, r)

/-- The outer loop. -/
def settleTables : List Table → Number → ℤ → Except PyError (List Table)
  | [], _, _ => .ok []
  | t :: ts, start, highest =>
    match settleEntries t.entries start highest with
    | .error x => .error x
    | .ok (es, start, highest) =>
      match settleTables ts start highest with
      | .error x => .error x
      | .ok ts => .ok ({ t with entries := es } :: ts)

/-- The first and the last block of a partition; arithmetic with `None` is a type error. -/
def Entry.bounds (e : Entry) : Except PyError (ℤ × ℤ) :=
  match e.startBlock with
  | none => .error .typeError
  | some s => .ok (s, s + e.getSizeInBlock - 1)

/-- `__check_overlap`, whose 0 is `true`. -/
def checkOverlap (pstart pend : ℤ) : List Entry → Except PyError Bool
  | [] => .ok true
  | c :: cs =>
    match c.bounds with
    | .error x => .error x
    | .ok (cstart, cend) =>
      if cstart = pstart ∧ cend = pend then checkOverlap pstart pend cs
      else if (pstart ≤ cstart ∧ cstart ≤ pend) ∨ (pstart ≤ cend ∧ cend ≤ pend) then .ok false
      else checkOverlap pstart pend cs

/-- `__check_overlap_all` of the partitions `all`; the loop is over the second list. -/
def checkOverlapAll (all : List Entry) : List Entry → Except PyError Unit
  | [] => .ok ()
  | e :: es =>
    match e.bounds with
    | .error x => .error x
    | .ok (currStart, currEnd) =>
      match checkOverlap currStart currEnd all with
      | .error x => .error x
      | .ok false => .error (.assertion "Overlapping partitions")
      | .ok true => checkOverlapAll all es

/-- The start block and the size of the last partition, the values so far being `last` and `size`. -/
def lastPartition : List Entry → ℤ → ℤ → Except PyError (ℤ × ℤ)
  | [], last, size => .ok (last, size)
  | e :: es, last, size =>
    match e.startBlock with
    | none => .error .typeError
    | some curr => if last < curr then lastPartition es curr e.getSizeInBlock else lastPartition es last size

namespace Descriptor

def computeStartBlock (fd : Descriptor) : Except PyError Descriptor :=
  let numFwt := toFloat ((fd.tables.length * fd.tableAlignSize : ℕ) / fd.blockSize)
  match settleTables fd.tables (.float numFwt) 0 with
  | .error x => .error x
  | .ok tables =>
    let entries := tables.flatMap Table.entries
    match checkOverlapAll entries entries with
    | .error x => .error x
    | .ok () => .ok { fd with tables }

/-- Without a last partition the quotient of a list and a number is computed. -/
def getDiskSize (fd : Descriptor) : Except PyError ℤ :=
  match lastPartition fd.entries 0 0 with
  | .error x => .error x
  | .ok (last, size) => if last = 0 then .error .typeError else .ok ((last + size) * fd.blockSize)

end Descriptor

/-! ### Runs of blocks -/

/-- The blocks from `start` on, `size` of them. -/
structure Span where
  start : ℤ
  size : ℤ
  deriving DecidableEq

namespace Span

variable {p c : Span}

def stop (p : Span) : ℤ := p.start + p.size

instance : Membership ℤ Span := ⟨fun p b => p.start ≤ b ∧ b < p.stop⟩

theorem mem_def {b : ℤ} : b ∈ p ↔ p.start ≤ b ∧ b < p.start + p.size := Iff.rfl

/-- No block in common. -/
def Disj (p c : Span) : Prop := ∀ b ∈ p, b ∉ c

/-- What the overlap test reports of `c` when it looks for `p`. -/
def Collides (p c : Span) : Prop :=
  ¬(c.start = p.start ∧ c.start + c.size - 1 = p.start + p.size - 1) ∧
    ((p.start ≤ c.start ∧ c.start ≤ p.start + p.size - 1) ∨
      (p.start ≤ c.start + c.size - 1 ∧ c.start + c.size - 1 ≤ p.start + p.size - 1))

instance : Decidable (Collides p c) := inferInstanceAs (Decidable (_ ∧ _))

theorem disj_iff (hp : 0 < p.size) (hc : 0 < c.size) : p.Disj c ↔ p.stop ≤ c.start ∨ c.stop ≤ p.start := by
  simp only [Disj, mem_def, stop]
  constructor
  · intro h
    by_contra hne
    exact h (max p.start c.start) (by omega) (by omega)
  · rintro h b hb hbc
    omega

/-- Looked for both ways, two runs collide if and only if they share a block and are not the same. -/
theorem collides_or_iff (hp : 0 < p.size) (hc : 0 < c.size) :
    (p.Collides c ∨ c.Collides p) ↔ p ≠ c ∧ ¬p.Disj c := by
  rw [disj_iff hp hc]
  obtain ⟨s, n⟩ := p
  obtain ⟨t, m⟩ := c
  dsimp only at hp hc
  simp only [Collides, stop, ne_eq, Span.mk.injEq]
  omega

end Span

/-! ### Where each partition goes -/

/-- A partition is at its own start block or else at `h`. -/
def Entry.spanFrom (e : Entry) (h : ℤ) : Span := ⟨e.startBlock.getD h, e.getSizeInBlock⟩

/-- The greatest end after the partitions, `h` before them. -/
def highestEnd : List Entry → ℤ → ℤ
  | [], h => h
  | e :: es, h => highestEnd es (max h (e.spanFrom h).stop)

/-- The blocks of the partitions, one without a start block being at the greatest end before it. -/
def place : List Entry → ℤ → List Span
  | [], _ => []
  | e :: es, h => e.spanFrom h :: place es (max h (e.spanFrom h).stop)

def placeTables : List Table → ℤ → List (List Span)
  | [], _ => []
  | t :: ts, h => place t.entries h :: placeTables ts (highestEnd t.entries h)

/-- The blocks of the partitions of each table, by the attributes alone. -/
def Descriptor.spans (fd : Descriptor) : List (List Span) := placeTables fd.tables 0

/-- The blocks of a partition that has its start block. -/
def Entry.span? (e : Entry) : Option Span := e.startBlock.map (⟨·, e.getSizeInBlock⟩)

theorem place_size {es : List Entry} (hpos : ∀ e ∈ es, 0 < e.getSizeInBlock) {h : ℤ} :
    ∀ p ∈ place es h, 0 < p.size := by
  induction es generalizing h with
  | nil =>
    rintro p ⟨⟩
  | cons e es ih =>
    rw [place, List.forall_mem_cons]
    exact ⟨hpos e List.mem_cons_self, ih fun c hc => hpos c (List.mem_cons_of_mem _ hc)⟩

theorem placeTables_size {ts : List Table} (hpos : ∀ e ∈ ts.flatMap Table.entries, 0 < e.getSizeInBlock) {h : ℤ} :
    ∀ p ∈ (placeTables ts h).flatten, 0 < p.size := by
  induction ts generalizing h with
  | nil =>
    rintro p ⟨⟩
  | cons t ts ih =>
    rw [List.flatMap_cons, List.forall_mem_append] at hpos
    rw [placeTables, List.flatten_cons, List.forall_mem_append]
    exact ⟨place_size hpos.1, ih hpos.2⟩

theorem place_eq_nil {es : List Entry} {h : ℤ} : place es h = [] ↔ es = [] := by
  cases es with
  | nil => exact iff_of_true rfl rfl
  | cons e es => exact iff_of_false (List.cons_ne_nil _ _) (List.cons_ne_nil _ _)

theorem placeTables_eq_nil {ts : List Table} {h : ℤ} :
    (placeTables ts h).flatten = [] ↔ ts.flatMap Table.entries = [] := by
  induction ts generalizing h with
  | nil => exact iff_of_true rfl rfl
  | cons t ts ih =>
    rw [placeTables, List.flatten_cons, List.append_eq_nil_iff, place_eq_nil, ih, List.flatMap_cons,
      List.append_eq_nil_iff]

/-! ### The loops -/

theorem settle_int (e : Entry) (h : ℤ) :
    ∃ e', e.settle (.int h) = .ok (e', (e.spanFrom h).start) ∧ e'.span? = some (e.spanFrom h) ∧
      e'.getSizeInBlock = e.getSizeInBlock := by
  cases hs : e.startBlock with
  | none =>
    have hspan : e.spanFrom h = ⟨h, e.getSizeInBlock⟩ := by rw [Entry.spanFrom, hs, Option.getD_none]
    rw [hspan]
    refine ⟨{ e with startBlock := some h }, ?_, rfl, rfl⟩
    rw [Entry.settle, hs]
    rfl
  | some s =>
    have hspan : e.spanFrom h = ⟨s, e.getSizeInBlock⟩ := by rw [Entry.spanFrom, hs, Option.getD_some]
    rw [hspan]
    refine ⟨e, ?_, ?_, rfl⟩
    · rw [Entry.settle, hs]
    · rw [Entry.span?, hs, Option.map_some]

theorem settleEntries_int (es : List Entry) (h : ℤ) :
    ∃ es', settleEntries es (.int h) h = .ok (es', .int (highestEnd es h), highestEnd es h) ∧
      es'.map Entry.span? = (place es h).map some := by
  induction es generalizing h with
  | nil => exact ⟨[], rfl, rfl⟩
  | cons e es ih =>
    obtain ⟨e', hsettle, hspan, hsize⟩ := settle_int e h
    have hmax : (if (e.spanFrom h).start + e'.getSizeInBlock > h then (e.spanFrom h).start + e'.getSizeInBlock
        else h) = max h (e.spanFrom h).stop := by
      rw [hsize, Span.stop, Entry.spanFrom]
      dsimp only
      omega
    obtain ⟨es', hes, hspans⟩ := ih (max h (e.spanFrom h).stop)
    refine ⟨e' :: es', ?_, ?_⟩
    · simp only [settleEntries, hsettle, hmax, hes, highestEnd]
    · rw [List.map_cons, hspan, hspans, place, List.map_cons]

theorem settleTables_int (ts : List Table) (h : ℤ) :
    ∃ ts', settleTables ts (.int h) h = .ok ts' ∧
      ts'.map (fun t => t.entries.map Entry.span?) = (placeTables ts h).map (List.map some) := by
  induction ts generalizing h with
  | nil => exact ⟨[], rfl, rfl⟩
  | cons t ts ih =>
    obtain ⟨es', hes, hspans⟩ := settleEntries_int t.entries h
    obtain ⟨ts', hts, hrest⟩ := ih (highestEnd t.entries h)
    refine ⟨{ t with entries := es' } :: ts', ?_, ?_⟩
    · simp only [settleTables, hes, hts]
    · rw [List.map_cons, hrest, placeTables, List.map_cons, hspans]

/-- Without partitions nothing is assigned. -/
theorem settleTables_nil {ts : List Table} {start : Number} {h : ℤ} (hes : ts.flatMap Table.entries = []) :
    settleTables ts start h = .ok ts := by
  induction ts with
  | nil => rfl
  | cons t ts ih =>
    rw [List.flatMap_cons, List.append_eq_nil_iff] at hes
    simp only [settleTables, hes.1, settleEntries, ih hes.2]
    rw [← hes.1]

/-- A first partition with a start block does not look at the variable. -/
theorem settleTables_explicit {ts : List Table} {start start' : Number} {h s : ℤ} {e : Entry} {es : List Entry}
    (hes : ts.flatMap Table.entries = e :: es) (hs : e.startBlock = some s) :
    settleTables ts start h = settleTables ts start' h := by
  induction ts with
  | nil => cases hes
  | cons t ts ih =>
    cases ht : t.entries with
    | nil =>
      rw [List.flatMap_cons, ht, List.nil_append] at hes
      simp only [settleTables, ht, settleEntries, ih hes]
    | cons c cs =>
      rw [List.flatMap_cons, ht, List.cons_append] at hes
      cases hes
      simp only [settleTables, ht, settleEntries, Entry.settle, hs]

/-- A first partition without a start block is refused the number of the tables' blocks. -/
theorem settleTables_automatic {ts : List Table} {x : ℚ} {h : ℤ} {e : Entry} {es : List Entry}
    (hes : ts.flatMap Table.entries = e :: es) (hs : e.startBlock = none) :
    settleTables ts (.float x) h = .error (.assertion "The input start block isn't an integer") := by
  induction ts with
  | nil => cases hes
  | cons t ts ih =>
    cases ht : t.entries with
    | nil =>
      rw [List.flatMap_cons, ht, List.nil_append] at hes
      simp only [settleTables, ht, settleEntries, ih hes]
    | cons c cs =>
      rw [List.flatMap_cons, ht, List.cons_append] at hes
      cases hes
      simp only [settleTables, ht, settleEntries, Entry.settle, hs, Entry.updateStartBlock]

/-! ### The overlap test -/

theorem bounds_of_span {e : Entry} {p : Span} (h : e.span? = some p) :
    e.bounds = .ok (p.start, p.start + p.size - 1) := by
  obtain ⟨s, hs, rfl⟩ := Option.map_eq_some_iff.mp h
  rw [Entry.bounds, hs]

theorem checkOverlap_eq {es : List Entry} {ss : List Span} (hes : es.map Entry.span? = ss.map some) (p : Span) :
    checkOverlap p.start (p.start + p.size - 1) es = .ok (decide (∀ c ∈ ss, ¬p.Collides c)) := by
  induction ss generalizing es with
  | nil =>
    obtain rfl := List.map_eq_nil_iff.mp hes
    rfl
  | cons c ss ih =>
    obtain ⟨e, es, rfl, hspan, hrest⟩ := List.map_eq_cons_iff.mp hes
    simp only [checkOverlap, bounds_of_span hspan, ih hrest, List.forall_mem_cons]
    by_cases hsame : c.start = p.start ∧ c.start + c.size - 1 = p.start + p.size - 1
    · have hnot : ¬p.Collides c := fun h => h.1 hsame
      simp only [if_pos hsame, hnot, not_false_iff, true_and]
    · rw [if_neg hsame]
      split
      · rename_i hin
        have hcol : p.Collides c := ⟨hsame, hin⟩
        simp only [hcol, not_true_eq_false, false_and, decide_false]
      · rename_i hout
        have hnot : ¬p.Collides c := fun h => hout h.2
        simp only [hnot, not_false_iff, true_and]

theorem checkOverlapAll_eq {all es : List Entry} {as ss : List Span} (hall : all.map Entry.span? = as.map some)
    (hes : es.map Entry.span? = ss.map some) :
    checkOverlapAll all es =
      if ∀ p ∈ ss, ∀ c ∈ as, ¬p.Collides c then .ok () else .error (.assertion "Overlapping partitions") := by
  induction ss generalizing es with
  | nil =>
    obtain rfl := List.map_eq_nil_iff.mp hes
    rw [if_pos (by rintro p ⟨⟩)]
    rfl
  | cons p ss ih =>
    obtain ⟨e, es, rfl, hspan, hrest⟩ := List.map_eq_cons_iff.mp hes
    simp only [checkOverlapAll, bounds_of_span hspan, checkOverlap_eq hall, ih hrest, List.forall_mem_cons]
    by_cases hp : ∀ c ∈ as, ¬p.Collides c
    · rw [decide_eq_true hp]
      exact (if_congr (and_iff_right hp) rfl rfl).symm
    · rw [decide_eq_false hp]
      exact (if_neg fun h => hp h.1).symm

/-- The test passes if and only if partitions that share a block have the same blocks. -/
theorem not_collides_iff {ss : List Span} (hpos : ∀ p ∈ ss, 0 < p.size) :
    (∀ p ∈ ss, ∀ c ∈ ss, ¬p.Collides c) ↔ ∀ p ∈ ss, ∀ c ∈ ss, p = c ∨ p.Disj c := by
  constructor
  · intro h p hp c hc
    by_contra hne
    rw [not_or] at hne
    rcases (Span.collides_or_iff (hpos p hp) (hpos c hc)).mpr hne with hcol | hcol
    · exact h p hp c hc hcol
    · exact h c hc p hp hcol
  · intro h p hp c hc hcol
    obtain ⟨hne, hshare⟩ := (Span.collides_or_iff (hpos p hp) (hpos c hc)).mp (.inl hcol)
    exact (h p hp c hc).elim hne hshare

/-! ### The size of the disk -/

theorem lastPartition_eq {es : List Entry} {ss : List Span} (hes : es.map Entry.span? = ss.map some) (last size : ℤ) :
    ∃ l n, lastPartition es last size = .ok (l, n) ∧ (∀ p ∈ ss, p.start ≤ l) ∧
      ((l = last ∧ n = size) ∨ (last < l ∧ ⟨l, n⟩ ∈ ss)) := by
  induction ss generalizing es last size with
  | nil =>
    obtain rfl := List.map_eq_nil_iff.mp hes
    exact ⟨last, size, rfl, (by rintro p ⟨⟩), .inl ⟨rfl, rfl⟩⟩
  | cons p ss ih =>
    obtain ⟨e, es, rfl, hspan, hrest⟩ := List.map_eq_cons_iff.mp hes
    obtain ⟨s, hs, rfl⟩ := Option.map_eq_some_iff.mp hspan
    by_cases hlt : last < s
    · obtain ⟨l, n, hl, hmax, hin⟩ := ih hrest s e.getSizeInBlock
      refine ⟨l, n, by rw [lastPartition, hs]; exact (if_pos hlt).trans hl, ?_, .inr ?_⟩
      · rw [List.forall_mem_cons]
        refine ⟨?_, hmax⟩
        dsimp only
        omega
      · rcases hin with ⟨rfl, rfl⟩ | ⟨hlt', hin⟩
        · exact ⟨hlt, List.mem_cons_self⟩
        · exact ⟨hlt.trans hlt', List.mem_cons_of_mem _ hin⟩
    · obtain ⟨l, n, hl, hmax, hin⟩ := ih hrest last size
      refine ⟨l, n, by rw [lastPartition, hs]; exact (if_neg hlt).trans hl, ?_, ?_⟩
      · rw [List.forall_mem_cons]
        refine ⟨?_, hmax⟩
        dsimp only
        omega
      · exact hin.imp_right fun h => ⟨h.1, List.mem_cons_of_mem _ h.2⟩

/-- The last partition is the one with the greatest start block, if that is positive, and it ends last. -/
theorem lastPartition_isGreatest {ss : List Span} (hpos : ∀ p ∈ ss, 0 < p.size)
    (hsame : ∀ p ∈ ss, ∀ c ∈ ss, p = c ∨ p.Disj c) {l n : ℤ} (hmax : ∀ p ∈ ss, p.start ≤ l) (hin : ⟨l, n⟩ ∈ ss) :
    IsGreatest {x | ∃ p ∈ ss, p.stop = x} (l + n) := by
  refine ⟨⟨_, hin, rfl⟩, ?_⟩
  rintro x ⟨p, hp, rfl⟩
  rcases hsame p hp _ hin with rfl | hdisj
  · exact le_refl _
  · have hstart := hmax p hp
    have hp0 := hpos p hp
    have hn : 0 < n := hpos _ hin
    rcases (Span.disj_iff hp0 hn).mp hdisj with h | h
    · exact h.trans (by dsimp only; omega)
    · rw [Span.stop] at h
      dsimp only at h
      omega

/-! ### What is to hold of a layout -/

/-- Block `b` is one of the partition's. -/
def Entry.Contains (e : Entry) (b : ℤ) : Prop := ∃ p ∈ e.span?, b ∈ p

/-- One partition after the other from block `s` on. -/
def Contiguous : List Entry → ℤ → Prop
  | [], _ => True
  | e :: es, s => e.startBlock = some s ∧ Contiguous es (s + e.getSizeInBlock)

namespace Descriptor

variable (fd : Descriptor)

/-- The tables are at the start of the disk, each in `table_align_size` bytes. -/
def TableBlock (b : ℤ) : Prop := 0 ≤ b ∧ b * fd.blockSize < fd.tables.length * fd.tableAlignSize

/-- The first block after the tables. -/
def firstFree : ℤ := ⌈((fd.tables.length * fd.tableAlignSize : ℕ) : ℚ) / fd.blockSize⌉

/-- `m` is the end of the last partition. -/
def IsEnd (m : ℤ) : Prop := IsGreatest {x | ∃ e ∈ fd.entries, ∃ p ∈ e.span?, p.stop = x} m

/-- In `fd'` the partitions of a table are apart, all of them are off the tables of `fd`, and the size of the disk
    is where the last one ends. -/
structure Sound (fd' : Descriptor) : Prop where
  apart : ∀ t ∈ fd'.tables, t.entries.Pairwise fun e c => ∀ b, e.Contains b → ¬c.Contains b
  offTables : ∀ e ∈ fd'.entries, ∀ b, e.Contains b → ¬fd.TableBlock b
  diskSize : fd'.entries ≠ [] → ∃ m, fd'.IsEnd m ∧ fd'.getDiskSize = .ok (m * fd'.blockSize)

/-- A layout that is made is sound, and one is made, without gaps, when all the partitions are without start block. -/
def LaysOut : Prop :=
  (∀ fd', fd.computeStartBlock = .ok fd' → fd.Sound fd') ∧
    ((∀ e ∈ fd.entries, e.startBlock = none) →
      ∃ fd', fd.computeStartBlock = .ok fd' ∧ Contiguous fd'.entries fd.firstFree)

/-- There are no partitions; or the first one has no start block and another one has; or the first one has a start
    block, and either two different runs of blocks overlap, or the runs of each table are apart, they are off the
    tables, and one begins behind block 0. -/
def Fits : Prop :=
  match fd.entries with
  | [] => True
  | e :: _ =>
    if e.startBlock = none then ∃ c ∈ fd.entries, c.startBlock ≠ none
    else
      (∃ p ∈ fd.spans.flatten, ∃ c ∈ fd.spans.flatten, p ≠ c ∧ ¬p.Disj c) ∨
        ((∀ ss ∈ fd.spans, ss.Pairwise Span.Disj) ∧ (∀ p ∈ fd.spans.flatten, ∀ b ∈ p, ¬fd.TableBlock b) ∧
          ∃ p ∈ fd.spans.flatten, 0 < p.start)

end Descriptor

theorem forall_span_iff {es : List Entry} {ss : List Span} (hes : es.map Entry.span? = ss.map some)
    (P : Option Span → Prop) : (∀ e ∈ es, P e.span?) ↔ ∀ p ∈ ss, P (some p) := by
  rw [← List.forall_mem_map, hes, List.forall_mem_map]

theorem exists_span_iff {es : List Entry} {ss : List Span} (hes : es.map Entry.span? = ss.map some)
    (P : Option Span → Prop) : (∃ e ∈ es, P e.span?) ↔ ∃ p ∈ ss, P (some p) := by
  have h := not_congr (forall_span_iff hes fun o => ¬P o)
  push Not at h
  exact h

theorem entries_span {ts : List Table} {sss : List (List Span)}
    (h : ts.map (fun t => t.entries.map Entry.span?) = sss.map (List.map some)) :
    (ts.flatMap Table.entries).map Entry.span? = sss.flatten.map some := by
  rw [List.flatMap_def, List.map_flatten, List.map_map, List.map_flatten, ← h]
  rfl

/-- The partitions of each table are apart if and only if the runs are. -/
theorem apart_iff {ts : List Table} {sss : List (List Span)}
    (h : ts.map (fun t => t.entries.map Entry.span?) = sss.map (List.map some)) :
    (∀ t ∈ ts, t.entries.Pairwise fun e c => ∀ b, e.Contains b → ¬c.Contains b) ↔
      ∀ ss ∈ sss, ss.Pairwise Span.Disj := by
  have hmap := List.forall_mem_map (f := fun t : Table => t.entries.map Entry.span?) (l := ts)
    (P := List.Pairwise fun p c => ∀ b, (∃ q ∈ p, b ∈ q) → ¬∃ q ∈ c, b ∈ q)
  rw [h, List.forall_mem_map] at hmap
  simp only [List.pairwise_map, Option.mem_some_iff, exists_eq_left'] at hmap
  exact hmap.symm

namespace Descriptor

variable {fd : Descriptor}

/-- Behind a first partition with a start block the partitions go where `spans` says, unless two different runs
    overlap. -/
theorem computeStartBlock_explicit (hpos : ∀ p ∈ fd.spans.flatten, 0 < p.size) {e : Entry} {es : List Entry}
    (hes : fd.entries = e :: es) (hs : e.startBlock ≠ none) :
    ∃ ts, ts.map (fun t => t.entries.map Entry.span?) = fd.spans.map (List.map some) ∧
      ((∀ p ∈ fd.spans.flatten, ∀ c ∈ fd.spans.flatten, p = c ∨ p.Disj c) →
        fd.computeStartBlock = .ok { fd with tables := ts }) ∧
      (¬(∀ p ∈ fd.spans.flatten, ∀ c ∈ fd.spans.flatten, p = c ∨ p.Disj c) →
        fd.computeStartBlock = .error (.assertion "Overlapping partitions")) := by
  obtain ⟨s, hs⟩ := Option.ne_none_iff_exists'.mp hs
  obtain ⟨ts, hts, hspans⟩ := settleTables_int fd.tables 0
  have hall := entries_span hspans
  have hcheck := checkOverlapAll_eq hall hall
  rw [← spans] at hspans hcheck
  rw [← not_collides_iff hpos]
  refine ⟨ts, hspans, fun h => ?_, fun h => ?_⟩
  · rw [computeStartBlock, settleTables_explicit hes hs, hts]
    simp only [hcheck, if_pos h]
  · rw [computeStartBlock, settleTables_explicit hes hs, hts]
    simp only [hcheck, if_neg h]

theorem sound_iff (hpos : ∀ p ∈ fd.spans.flatten, 0 < p.size) {ts : List Table}
    (hts : ts.map (fun t => t.entries.map Entry.span?) = fd.spans.map (List.map some)) (hne : fd.spans.flatten ≠ [])
    (hsame : ∀ p ∈ fd.spans.flatten, ∀ c ∈ fd.spans.flatten, p = c ∨ p.Disj c) :
    fd.Sound { fd with tables := ts } ↔
      (∀ ss ∈ fd.spans, ss.Pairwise Span.Disj) ∧ (∀ p ∈ fd.spans.flatten, ∀ b ∈ p, ¬fd.TableBlock b) ∧
        ∃ p ∈ fd.spans.flatten, 0 < p.start := by
  have hes := entries_span hts
  have hapart : (∀ t ∈ ts, t.entries.Pairwise fun e c => ∀ b, e.Contains b → ¬c.Contains b) ↔
      ∀ ss ∈ fd.spans, ss.Pairwise Span.Disj := apart_iff hts
  have hoff : (∀ e ∈ ts.flatMap Table.entries, ∀ b, e.Contains b → ¬fd.TableBlock b) ↔
      ∀ p ∈ fd.spans.flatten, ∀ b ∈ p, ¬fd.TableBlock b := by
    refine (forall_span_iff hes fun o => ∀ b, (∃ p ∈ o, b ∈ p) → ¬fd.TableBlock b).trans ?_
    simp only [Option.mem_some_iff, exists_eq_left']
  have hends : {x | ∃ e ∈ ts.flatMap Table.entries, ∃ p ∈ e.span?, p.stop = x} =
      {x | ∃ p ∈ fd.spans.flatten, p.stop = x} := by
    ext x
    refine (exists_span_iff hes fun o => ∃ p ∈ o, p.stop = x).trans ?_
    simp only [Option.mem_some_iff, exists_eq_left', Set.mem_ofPred_eq]
  obtain ⟨l, n, hl, hmax, hin⟩ := lastPartition_eq hes 0 0
  have hsize : getDiskSize { fd with tables := ts } =
      if l = 0 then .error .typeError else .ok ((l + n) * fd.blockSize) := by
    rw [getDiskSize, entries, hl]
  constructor
  · rintro ⟨h₁, h₂, h₃⟩
    refine ⟨hapart.mp h₁, hoff.mp h₂, ?_⟩
    obtain ⟨m, -, hm⟩ := h₃ (by rw [ne_eq, ← List.map_eq_nil_iff (f := Entry.span?), entries, hes]; simpa using hne)
    rw [hsize] at hm
    rcases hin with ⟨rfl, -⟩ | ⟨hlt, hin⟩
    · cases hm
    · exact ⟨_, hin, hlt⟩
  · rintro ⟨h₁, h₂, p, hp, hp0⟩
    have hl0 : 0 < l := hp0.trans_le (hmax p hp)
    have hin' := hin.resolve_left fun h => hl0.ne' h.1
    refine ⟨hapart.mpr h₁, hoff.mpr h₂, fun _ => ⟨l + n, ?_, ?_⟩⟩
    · rw [IsEnd, entries, hends]
      exact lastPartition_isGreatest hpos hsame hmax hin'.2
    · rw [hsize, if_neg hl0.ne']

/-- Without partitions the layout is as it was. -/
theorem computeStartBlock_nil (hes : fd.entries = []) : fd.computeStartBlock = .ok fd := by
  have hflat : fd.tables.flatMap Table.entries = [] := hes
  rw [computeStartBlock, settleTables_nil hes]
  simp only [hflat, checkOverlapAll]

theorem laysOut_nil (hes : fd.entries = []) : fd.LaysOut := by
  have hok := computeStartBlock_nil hes
  refine ⟨fun fd' hfd' => ?_, fun _ => ⟨fd, hok, by rw [hes]; trivial⟩⟩
  rw [hok] at hfd'
  cases hfd'
  refine ⟨fun t ht => ?_, ?_, fun hne => absurd hes hne⟩
  · have hnil : t.entries = [] := List.flatMap_eq_nil_iff.mp hes t ht
    rw [hnil]
    exact List.Pairwise.nil
  · rw [hes]
    rintro e ⟨⟩

/-- A first partition without a start block is refused. -/
theorem computeStartBlock_automatic {e : Entry} {es : List Entry} (hes : fd.entries = e :: es)
    (hs : e.startBlock = none) :
    fd.computeStartBlock = .error (.assertion "The input start block isn't an integer") := by
  rw [computeStartBlock, settleTables_automatic hes hs]

/-- Where the first partition has no start block, the layout is never made, so the one thing that is missed is a
    layout of partitions none of which has one. -/
theorem laysOut_automatic {e : Entry} {es : List Entry} (hes : fd.entries = e :: es) (hs : e.startBlock = none) :
    fd.LaysOut ↔ ∃ c ∈ fd.entries, c.startBlock ≠ none := by
  have hraise := computeStartBlock_automatic hes hs
  constructor
  · rintro ⟨-, h⟩
    by_contra hnone
    push Not at hnone
    obtain ⟨fd', hfd', -⟩ := h hnone
    rw [hraise] at hfd'
    cases hfd'
  · rintro ⟨c, hc, hne⟩
    refine ⟨fun fd' hfd' => ?_, fun hnone => absurd (hnone c hc) hne⟩
    rw [hraise] at hfd'
    cases hfd'

theorem laysOut_explicit (hpos : ∀ p ∈ fd.spans.flatten, 0 < p.size) {e : Entry} {es : List Entry}
    (hes : fd.entries = e :: es) (hs : e.startBlock ≠ none) :
    fd.LaysOut ↔
      (∃ p ∈ fd.spans.flatten, ∃ c ∈ fd.spans.flatten, p ≠ c ∧ ¬p.Disj c) ∨
        ((∀ ss ∈ fd.spans, ss.Pairwise Span.Disj) ∧ (∀ p ∈ fd.spans.flatten, ∀ b ∈ p, ¬fd.TableBlock b) ∧
          ∃ p ∈ fd.spans.flatten, 0 < p.start) := by
  have hsome : ¬∀ c ∈ fd.entries, c.startBlock = none := fun h => hs (h e (hes ▸ List.mem_cons_self))
  obtain ⟨ts, hts, hok, herror⟩ := computeStartBlock_explicit hpos hes hs
  have hlays : fd.LaysOut ↔ ∀ fd', fd.computeStartBlock = .ok fd' → fd.Sound fd' :=
    and_iff_left fun h => absurd h hsome
  rw [hlays]
  by_cases hsame : ∀ p ∈ fd.spans.flatten, ∀ c ∈ fd.spans.flatten, p = c ∨ p.Disj c
  · have hne : fd.spans.flatten ≠ [] := by
      rw [spans, ne_eq, placeTables_eq_nil]
      exact ne_of_eq_of_ne hes (List.cons_ne_nil _ _)
    have hno : ¬∃ p ∈ fd.spans.flatten, ∃ c ∈ fd.spans.flatten, p ≠ c ∧ ¬p.Disj c := by
      rintro ⟨p, hp, c, hc, hpc, hshare⟩
      exact (hsame p hp c hc).elim hpc hshare
    rw [or_iff_right hno, ← sound_iff hpos hts hne hsame, hok hsame]
    refine ⟨fun h => h _ rfl, fun h fd' hfd' => ?_⟩
    cases hfd'
    exact h
  · refine iff_of_true (fun fd' hfd' => ?_) (.inl ?_)
    · rw [herror hsame] at hfd'
      cases hfd'
    · push Not at hsame
      exact hsame

/-- For partitions of positive size. -/
theorem lays_out_iff (fd : Descriptor) (hpos : ∀ e ∈ fd.entries, 0 < e.sizeInKb) : fd.LaysOut ↔ fd.Fits := by
  have hspans : ∀ p ∈ fd.spans.flatten, 0 < p.size :=
    placeTables_size fun e he => Entry.getSizeInBlock_pos (hpos e he)
  rw [Fits]
  cases hes : fd.entries with
  | nil =>
    exact iff_of_true (laysOut_nil hes) trivial
  | cons e es =>
    by_cases hs : e.startBlock = none
    · exact (laysOut_automatic hes hs).trans (by simp only [if_pos hs, hes])
    · exact (laysOut_explicit hspans hes hs).trans (by simp only [if_neg hs])

theorem flashBlock_pos : 0 < 4096 := by decide

/-- One table with one partition of 4 KB. -/
def onePartition (startBlock : Option ℤ) : Descriptor where
  tableAlignSize := 4096
  blockSize := 4096
  tables := [⟨0x54445746, 1, 1, 0, 1, .str "", [⟨0x1001, startBlock, 4, 4096, 0, flashBlock_pos⟩]⟩]
  blockSize_pos := flashBlock_pos

theorem onePartition_size (startBlock : Option ℤ) : ∀ e ∈ (onePartition startBlock).entries, 0 < e.sizeInKb :=
  List.forall_mem_singleton.mpr (by norm_num)

/-- At block 1 it is behind the table. -/
theorem lays_out_behind_the_table : (onePartition (some 1)).LaysOut := by
  refine (lays_out_iff _ (onePartition_size _)).mpr (.inr ⟨?_, ?_, ?_⟩)
  · exact List.forall_mem_singleton.mpr (List.pairwise_singleton _ _)
  · refine List.forall_mem_singleton.mpr fun b hb htable => ?_
    have hb1 : (1 : ℤ) ≤ b := hb.1
    have hlt : b * 4096 < 4096 := htable.2
    omega
  · exact ⟨_, List.mem_singleton_self _, one_pos⟩

/-- Without a start block the exception is raised. -/
theorem lays_out_raises :
    (∀ e ∈ (onePartition none).entries, 0 < e.sizeInKb) ∧ ¬(onePartition none).LaysOut := by
  refine ⟨onePartition_size none, fun h => ?_⟩
  obtain ⟨c, hc, hne⟩ := (laysOut_automatic rfl rfl).mp h
  obtain rfl := List.mem_singleton.mp hc
  exact hne rfl

end Descriptor

end Qcc730.FwdTool
