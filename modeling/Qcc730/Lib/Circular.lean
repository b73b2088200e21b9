import Qcc730.Lib.Modular

/-! Circular buffers.

    A buffer of `n` cells holds a queue: its elements lie from the read pointer on, round the end. Elements are
    copied in and out in runs of consecutive cells, a run ending at the last cell; whatever the runs are, what
    goes in is what the queue is extended by, as long as there is room, and what comes out is its front. -/

namespace Qcc730.Lib

variable {α : Type*} {n : ℕ}

/-- The `k` elements of a circular buffer of `n` cells, from cell `p` on. -/
def slice (n : ℕ) (cell : ℕ → α) (p k : ℕ) : List α := (List.range k).map fun i => cell ((p + i) % n)

@[simp] theorem length_slice (cell : ℕ → α) (p k : ℕ) : (slice n cell p k).length = k := by simp [slice]

@[simp] theorem slice_zero (cell : ℕ → α) (p : ℕ) : slice n cell p 0 = [] := rfl

theorem slice_mod (cell : ℕ → α) (p k : ℕ) : slice n cell (p % n) k = slice n cell p k := by
  simp only [slice, Nat.mod_add_mod]

theorem slice_add (cell : ℕ → α) (p j k : ℕ) :
    slice n cell p (j + k) = slice n cell p j ++ slice n cell (p + j) k := by
  simp only [slice, List.range_add, List.map_append, List.map_map]
  congr 1
  apply List.map_congr_left
  intro i _
  simp only [Function.comp, Nat.add_assoc]

theorem slice_congr {cell cell' : ℕ → α} {p k : ℕ} (h : ∀ i < k, cell ((p + i) % n) = cell' ((p + i) % n)) :
    slice n cell p k = slice n cell' p k := by
  apply List.map_congr_left
  intro i hi
  exact h i (List.mem_range.mp hi)

/-- A free cell written behind the elements adds one. -/
theorem slice_update {cell : ℕ → α} {p k : ℕ} {x : α} (hk : k < n) :
    slice n (Function.update cell ((p + k) % n) x) p (k + 1) = slice n cell p k ++ [x] := by
  rw [slice_add]
  congr 1
  · apply slice_congr
    intro i hi
    exact Function.update_of_ne (mod_ne_mod_of_lt (by omega) (by omega)) _ _
  · show [Function.update cell ((p + k) % n) x ((p + k + 0) % n)] = [x]
    rw [Nat.add_zero, Function.update_self]

/-- Consecutive cells. -/
theorem slice_run {cell : ℕ → α} {p k : ℕ} (h : p + k ≤ n) :
    slice n cell p k = (List.range k).map fun i => cell (p + i) := by
  apply List.map_congr_left
  intro i hi
  rw [Nat.mod_eq_of_lt (by have := List.mem_range.mp hi; omega)]

/-! ### The buffer and its copy loops -/

/-- A circular buffer: its cells, the read and the write pointer and the number of elements. -/
structure Circular (α : Type*) where
  cell : ℕ → α
  rp : ℕ
  wp : ℕ
  used : ℕ

namespace Circular

/-- The queue it holds. -/
def content (n : ℕ) (r : Circular α) : List α := slice n r.cell r.rp r.used

/-- The pointers lie in the buffer, as far apart as the number of elements says. -/
structure Formed (n : ℕ) (r : Circular α) : Prop where
  rp : r.rp < n
  wp : r.wp = (r.rp + r.used) % n

theorem Formed.pos {r : Circular α} (h : r.Formed n) : 0 < n := Nat.zero_lt_of_lt h.rp

theorem Formed.wp_lt {r : Circular α} (h : r.Formed n) : r.wp < n := by
  rw [h.wp]
  exact Nat.mod_lt _ h.pos

@[simp] theorem length_content (r : Circular α) : (r.content n).length = r.used := length_slice ..

/-- One element written. -/
def push (n : ℕ) (r : Circular α) (x : α) : Circular α :=
  { r with cell := Function.update r.cell r.wp x, wp := (r.wp + 1) % n, used := r.used + 1 }

/-- The elements `d` copied to the cells from the write pointer on. -/
def copyIn (n : ℕ) (r : Circular α) (d : List α) : Circular α :=
  { r with
    cell := fun x => if r.wp ≤ x then d.getD (x - r.wp) (r.cell x) else r.cell x
    wp := (r.wp + d.length) % n
    used := r.used + d.length }

/-- `d` written run by run; `fuel` bounds the number of runs. -/
def writeLoop (n : ℕ) : ℕ → Circular α → List α → Circular α
  | 0, r, _ => r
  | fuel + 1, r, d =>
    if d = [] then r
    else
      let run := if r.wp + d.length > n then n - r.wp else d.length
      writeLoop n fuel (r.copyIn n (d.take run)) (d.drop run)

/-- `d` written. -/
def write (n : ℕ) (r : Circular α) (d : List α) : Circular α := writeLoop n d.length r d

/-- `k` elements copied from the cells from the read pointer on. -/
def copyOut (n : ℕ) (r : Circular α) (k : ℕ) : Circular α :=
  { r with rp := (r.rp + k) % n, used := r.used - k }

/-- `k` elements read run by run, behind those in `out`. -/
def readLoop (n : ℕ) : ℕ → Circular α → ℕ → List α → List α × Circular α
  | 0, r, _, out => (out, r)
  | fuel + 1, r, k, out =>
    if k = 0 then (out, r)
    else
      let run := if k + r.rp > n then n - r.rp else k
      readLoop n fuel (r.copyOut n run) (k - run) (out ++ (List.range run).map fun i => r.cell (r.rp + i))

/-- `k` elements read. -/
def read (n : ℕ) (r : Circular α) (k : ℕ) : List α × Circular α := readLoop n k r k []

/-! ### Writing -/

theorem push_wp_lt {r : Circular α} {x : α} (hn : 0 < n) : (r.push n x).wp < n := Nat.mod_lt _ hn

/-- A run of cells copied is its elements written one by one. -/
theorem copyIn_eq {d : List α} {r : Circular α} (h : r.wp + d.length ≤ n) (hwp : r.wp < n) :
    r.copyIn n d = d.foldl (push n) r := by
  induction d generalizing r with
  | nil => simp [copyIn, Nat.mod_eq_of_lt hwp]
  | cons x d ih =>
    rw [List.length_cons] at h
    rw [List.foldl_cons]
    cases d with
    | nil =>
      simp only [copyIn, push, List.foldl_nil, List.length_cons, List.length_nil]
      congr 1
      funext y
      rcases Nat.lt_trichotomy y r.wp with hy | rfl | hy
      · rw [if_neg (by omega), Function.update_of_ne (by omega)]
      · simp
      · rw [if_pos hy.le, Function.update_of_ne (by omega), List.getD_eq_getElem?_getD, List.getElem?_eq_none]
        · rfl
        · rw [List.length_singleton]
          omega
    | cons z d =>
      rw [List.length_cons] at h
      have hnext : (r.push n x).wp = r.wp + 1 := Nat.mod_eq_of_lt (by omega)
      rw [← ih (by rw [hnext, List.length_cons]; omega) (by rw [hnext]; omega)]
      simp only [copyIn, hnext, List.length_cons]
      simp only [push]
      congr 1
      · funext y
        rcases Nat.lt_trichotomy y r.wp with hy | rfl | hy
        · rw [if_neg (by omega), if_neg (by omega), Function.update_of_ne (by omega)]
        · simp
        · obtain ⟨j, rfl⟩ : ∃ j, y = r.wp + 1 + j := ⟨y - (r.wp + 1), by omega⟩
          rw [if_pos (by omega), if_pos (by omega), Function.update_of_ne (by omega), Nat.add_sub_cancel_left,
            show r.wp + 1 + j - r.wp = j + 1 from by omega, List.getD_cons_succ]
      · congr 1
        omega
      · omega

theorem foldl_push_wp_lt {d : List α} {r : Circular α} (hn : 0 < n) (hwp : r.wp < n) :
    (d.foldl (push n) r).wp < n := by
  induction d generalizing r with
  | nil => exact hwp
  | cons x d ih => exact ih (push_wp_lt hn)

theorem writeLoop_eq {fuel : ℕ} {r : Circular α} {d : List α} (hfuel : d.length ≤ fuel) (hwp : r.wp < n) :
    writeLoop n fuel r d = d.foldl (push n) r := by
  induction fuel generalizing r d with
  | zero =>
    rw [List.length_eq_zero_iff.mp (Nat.le_zero.mp hfuel)]
    rfl
  | succ fuel ih =>
    rw [writeLoop]
    split
    · rename_i hd
      rw [hd]
      rfl
    · rename_i hd
      have hlen := List.length_pos_iff.mpr hd
      generalize hrun : (if r.wp + d.length > n then n - r.wp else d.length) = run
      have hpos : 0 < run ∧ run ≤ d.length ∧ r.wp + run ≤ n := by split at hrun <;> omega
      have htake : (d.take run).length = run := by rw [List.length_take]; omega
      simp only []
      rw [copyIn_eq (by omega) hwp, ih (by rw [List.length_drop]; omega) (foldl_push_wp_lt (by omega) hwp),
        ← List.foldl_append, List.take_append_drop]

theorem write_eq {r : Circular α} {d : List α} (hwp : r.wp < n) : r.write n d = d.foldl (push n) r :=
  writeLoop_eq le_rfl hwp

theorem Formed.push {r : Circular α} {x : α} (h : r.Formed n) : (r.push n x).Formed n where
  rp := h.rp
  wp := by
    show (r.wp + 1) % n = (r.rp + (r.used + 1)) % n
    rw [h.wp, Nat.mod_add_mod, Nat.add_assoc]

theorem content_push {r : Circular α} {x : α} (h : r.Formed n) (hroom : r.used < n) :
    (r.push n x).content n = r.content n ++ [x] := by
  simp only [content, Circular.push, h.wp]
  exact slice_update hroom

theorem foldl_push_used (r : Circular α) (d : List α) : (d.foldl (Circular.push n) r).used = r.used + d.length := by
  induction d generalizing r with
  | nil => rfl
  | cons x d ih =>
    rw [List.foldl_cons, ih, List.length_cons]
    simp only [Circular.push]
    omega

theorem write_used {r : Circular α} {d : List α} (h : r.Formed n) : (r.write n d).used = r.used + d.length := by
  rw [write_eq h.wp_lt, foldl_push_used]

theorem Formed.write {r : Circular α} {d : List α} (h : r.Formed n) : (r.write n d).Formed n := by
  rw [write_eq h.wp_lt]
  induction d generalizing r with
  | nil => exact h
  | cons x d ih => exact ih h.push

/-- What is written, where there is room for it, stands behind what is there. -/
theorem content_write {r : Circular α} {d : List α} (h : r.Formed n) (hroom : r.used + d.length ≤ n) :
    (r.write n d).content n = r.content n ++ d := by
  rw [write_eq h.wp_lt]
  induction d generalizing r with
  | nil => simp
  | cons x d ih =>
    rw [List.length_cons] at hroom
    rw [List.foldl_cons, ih h.push (by show r.used + 1 + d.length ≤ n; omega), content_push h (by omega),
      List.append_assoc]
    rfl

/-! ### Reading -/

theorem Formed.copyOut {r : Circular α} {k : ℕ} (h : r.Formed n) (hk : k ≤ r.used) : (r.copyOut n k).Formed n where
  rp := Nat.mod_lt _ h.pos
  wp := by
    show r.wp = ((r.rp + k) % n + (r.used - k)) % n
    rw [Nat.mod_add_mod, h.wp]
    congr 1
    omega

theorem content_copyOut {r : Circular α} {k : ℕ} (hk : k ≤ r.used) (hrun : r.rp + k ≤ n) :
    r.content n = (List.range k).map (fun i => r.cell (r.rp + i)) ++ (r.copyOut n k).content n := by
  simp only [content, Circular.copyOut, slice_mod]
  rw [← slice_run hrun, ← slice_add]
  congr 1
  omega

/-- The read loop takes the front of the queue. -/
theorem readLoop_spec (out : List α) {fuel : ℕ} {r : Circular α} {k : ℕ} (hfuel : k ≤ fuel) (h : r.Formed n)
    (hk : k ≤ r.used) :
    ∃ taken, (readLoop n fuel r k out).1 = out ++ taken ∧ taken.length = k ∧
      r.content n = taken ++ (readLoop n fuel r k out).2.content n ∧ (readLoop n fuel r k out).2.Formed n ∧
      (readLoop n fuel r k out).2.used = r.used - k := by
  induction fuel generalizing r k out with
  | zero =>
    obtain rfl := Nat.le_zero.mp hfuel
    exact ⟨[], by simp [readLoop], rfl, rfl, h, rfl⟩
  | succ fuel ih =>
    rw [readLoop]
    split
    · rename_i hk0
      subst hk0
      exact ⟨[], by simp, rfl, rfl, h, rfl⟩
    · rename_i hk0
      have hrp := h.rp
      generalize hrun : (if k + r.rp > n then n - r.rp else k) = run
      have hpos : 0 < run ∧ run ≤ k ∧ r.rp + run ≤ n := by split at hrun <;> omega
      simp only []
      obtain ⟨taken, hout, hlen, hcontent, hformed, hused⟩ := ih (r := r.copyOut n run) (k := k - run)
        (out ++ (List.range run).map fun i => r.cell (r.rp + i)) (by omega) (h.copyOut (by omega))
        (by show k - run ≤ r.used - run; omega)
      refine ⟨(List.range run).map (fun i => r.cell (r.rp + i)) ++ taken, ?_, ?_, ?_, hformed, ?_⟩
      · rw [hout, List.append_assoc]
      · rw [List.length_append, List.length_map, List.length_range]
        omega
      · rw [content_copyOut (by omega) hpos.2.2, hcontent, List.append_assoc]
      · rw [hused]
        show r.used - run - (k - run) = r.used - k
        omega

/-- What is read is the front of the queue, and what stays is the rest of it. -/
theorem read_spec {r : Circular α} {k : ℕ} (h : r.Formed n) (hk : k ≤ r.used) :
    (r.read n k).1.length = k ∧ r.content n = (r.read n k).1 ++ (r.read n k).2.content n ∧
      (r.read n k).2.Formed n ∧ (r.read n k).2.used = r.used - k := by
  obtain ⟨taken, hout, hlen, hrest⟩ := readLoop_spec [] le_rfl h hk
  rw [List.nil_append] at hout
  rw [read, hout]
  exact ⟨hlen, hrest⟩

end Circular

end Qcc730.Lib
