import Mathlib.Data.List.Sort
import Mathlib.Data.Int.ConditionallyCompleteOrder
import Mathlib.Tactic

/-! Runs of values at consecutive integers, and the partial map that a list of them stands for.

    A list of runs that are in order with a gap behind each, none of them empty, is determined by its map. Sorting
    runs that are apart, and joining the ones that touch, brings a list to this form and does not change its map. -/

namespace Qcc730.Lib

variable {τ α : Type}

/-! ### Partial maps of the integers -/

/-- A partial map: the value at an address, if there is one. -/
abbrev Image (α : Type) := ℤ → Option α

namespace Image

/-- The values of a list from `s` on. -/
def ofList (s : ℤ) (d : List α) : Image α := fun x => if s ≤ x then d[(x - s).toNat]? else none

/-- `n` over `m`. -/
def overlay (m n : Image α) : Image α := fun x => (n x).or (m x)

/-- Nothing from `a` up to `e`. -/
def erase (m : Image α) (a e : ℤ) : Image α := fun x => if a ≤ x ∧ x < e then none else m x

/-- `v` wherever there is no value from `a` up to `e`. -/
def fill (m : Image α) (a e : ℤ) (v : α) : Image α := fun x => if a ≤ x ∧ x < e then some ((m x).getD v) else m x

/-- The `n` values from `a` on, with `v` where there is none. -/
def window (m : Image α) (a : ℤ) (n : ℕ) (v : α) : List α := (List.range n).map fun i : ℕ => (m (a + i)).getD v

def dom (m : Image α) : Set ℤ := {x | m x ≠ none}

/-- The first address with a value, 0 without one. -/
noncomputable def first (m : Image α) : ℤ := sInf m.dom

/-- The last address with a value, 0 without one. -/
noncomputable def last (m : Image α) : ℤ := sSup m.dom

/-- There is a value from `a` up to `e`. -/
def Meets (m : Image α) (a e : ℤ) : Prop := ∃ x, a ≤ x ∧ x < e ∧ m x ≠ none

section ofList

variable {s x : ℤ} {d e : List α}

@[simp] theorem ofList_nil : ofList s ([] : List α) x = none := by simp [ofList]

theorem ofList_eq_none_iff : ofList s d x = none ↔ x < s ∨ s + d.length ≤ x := by
  rw [ofList]
  split_ifs with h
  · rw [List.getElem?_eq_none_iff]
    omega
  · simp only [true_iff]
    omega

theorem ofList_ne_none_iff : ofList s d x ≠ none ↔ s ≤ x ∧ x < s + d.length := by
  rw [ne_eq, ofList_eq_none_iff]
  omega

theorem ofList_append : ofList s (d ++ e) x = (ofList s d x).or (ofList (s + d.length) e x) := by
  rcases lt_or_ge x s with h | h
  · rw [ofList_eq_none_iff.mpr (.inl h), ofList_eq_none_iff.mpr (.inl h), ofList_eq_none_iff.mpr (.inl (by omega))]
    rfl
  simp only [ofList, if_pos h]
  rcases lt_or_ge x (s + d.length) with hx | hx
  · rw [if_neg (by omega), List.getElem?_append_left (by omega), Option.or_none]
  · rw [if_pos hx, List.getElem?_append_right (by omega), Option.or_eq_right_of_none (List.getElem?_eq_none (by omega))]
    congr 1
    omega

theorem ofList_take (n : ℕ) : ofList s (d.take n) x = if x < s + n then ofList s d x else none := by
  split_ifs with h
  · simp only [ofList]
    split_ifs with hs
    · rw [List.getElem?_take_of_lt (by omega)]
    · rfl
  · rw [ofList_eq_none_iff, List.length_take]
    omega

theorem ofList_drop (n : ℕ) : ofList (s + n) (d.drop n) x = if s + n ≤ x then ofList s d x else none := by
  rw [ofList]
  split_ifs with h
  · rw [ofList, if_pos (by omega), List.getElem?_drop]
    congr 1
    omega
  · rfl

theorem ofList_replicate {n : ℕ} {v : α} :
    ofList s (List.replicate n v) x = if s ≤ x ∧ x < s + n then some v else none := by
  split_ifs with h
  · rw [ofList, if_pos h.1, List.getElem?_replicate, if_pos (by omega)]
  · rw [ofList_eq_none_iff, List.length_replicate]
    omega

theorem ofList_injective {d e : List α} (h : ofList s d = ofList s e) : d = e := by
  refine List.ext_getElem? fun i => ?_
  have hi := congrFun h (s + i)
  simpa [ofList] using hi

end ofList

section window

variable {m : Image α} {a : ℤ} {v : α}

@[simp] theorem length_window (n : ℕ) : (m.window a n v).length = n := by simp [window]

theorem window_add (j k : ℕ) : m.window a (j + k) v = m.window a j v ++ m.window (a + j) k v := by
  rw [window, List.range_add, List.map_append, List.map_map]
  refine congrArg₂ _ rfl (List.map_congr_left fun i _ => ?_)
  rw [Function.comp_apply, Nat.cast_add, add_assoc]

theorem window_none {n : ℕ} (h : ∀ x, a ≤ x → x < a + n → m x = none) : m.window a n v = List.replicate n v := by
  refine List.eq_replicate_iff.mpr ⟨by simp, ?_⟩
  simp only [window, List.mem_map, List.mem_range]
  rintro w ⟨i, hi, rfl⟩
  rw [h _ (by omega) (by omega)]
  rfl

theorem window_ofList {s : ℤ} {d : List α} {n : ℕ} (hs : s ≤ a) (hn : a + n ≤ s + d.length)
    (h : ∀ x, a ≤ x → x < a + n → m x = ofList s d x) :
    m.window a n v = (d.drop (a - s).toNat).take n := by
  refine List.ext_getElem? fun i => ?_
  rcases lt_or_ge i n with hi | hi
  · rw [window, List.getElem?_map, List.getElem?_range hi, List.getElem?_take_of_lt hi, List.getElem?_drop,
      Option.map_some, h _ (by omega) (by omega), ofList, if_pos (by omega),
      show (a + i - s).toNat = (a - s).toNat + i by omega, List.getElem?_eq_getElem (by omega)]
    rfl
  · rw [List.getElem?_eq_none (by simpa using hi), List.getElem?_eq_none (by simp; omega)]

end window

end Image

/-! ### Runs -/

/-- Values from `start` on. The tag says something about the run that is not about its values. -/
structure Segment (τ α : Type) where
  start : ℤ
  data : List α
  tag : τ
  deriving DecidableEq, Repr

namespace Segment

def stop (b : Segment τ α) : ℤ := b.start + b.data.length

def image (b : Segment τ α) : Image α := Image.ofList b.start b.data

/-- The map of a list: the first run that has a value at `x` says which. -/
def imageOf : List (Segment τ α) → Image α
  | [] => fun _ => none
  | b :: bs => fun x => (b.image x).or (imageOf bs x)

/-- In order, with a gap of at least `g`. -/
def InOrder (g : ℤ) (bs : List (Segment τ α)) : Prop := bs.Pairwise fun a b => a.stop + g ≤ b.start

/-- In any order, with a gap of at least `g` between any two. -/
def Clear (g : ℤ) (bs : List (Segment τ α)) : Prop :=
  bs.Pairwise fun a b => a.stop + g ≤ b.start ∨ b.stop + g ≤ a.start

/-- In order, no two overlap or touch, and none is empty. -/
structure Normal (bs : List (Segment τ α)) : Prop where
  inOrder : InOrder 1 bs
  nonempty : ∀ b ∈ bs, b.data ≠ []

instance (g : ℤ) (bs : List (Segment τ α)) : Decidable (InOrder g bs) :=
  inferInstanceAs (Decidable (List.Pairwise _ bs))

instance [DecidableEq α] (bs : List (Segment τ α)) : Decidable (Normal bs) :=
  decidable_of_iff (InOrder 1 bs ∧ ∀ b ∈ bs, b.data ≠ []) ⟨fun h => ⟨h.1, h.2⟩, fun h => ⟨h.1, h.2⟩⟩

/-- The stable sort by the start. -/
def sort (bs : List (Segment τ α)) : List (Segment τ α) := bs.insertionSort fun a b => a.start ≤ b.start

/-- `b` before `bs`, a run joined to the one before it where the two touch. -/
def join (b : Segment τ α) : List (Segment τ α) → List (Segment τ α)
  | [] => [b]
  | c :: cs => if b.stop = c.start then join { b with data := b.data ++ c.data } cs else b :: join c cs

variable {a b c : Segment τ α} {as bs cs : List (Segment τ α)} {g x : ℤ} {v : α}

theorem start_le_stop : b.start ≤ b.stop := by
  rw [stop]
  omega

theorem start_lt_stop_iff : b.start < b.stop ↔ b.data ≠ [] := by
  rw [stop, ← List.length_pos_iff]
  omega

theorem image_eq_none_iff : b.image x = none ↔ x < b.start ∨ b.stop ≤ x := Image.ofList_eq_none_iff

theorem image_ne_none_iff : b.image x ≠ none ↔ b.start ≤ x ∧ x < b.stop := Image.ofList_ne_none_iff

theorem mem_of_image {v : α} (h : b.image x = some v) : b.start ≤ x ∧ x < b.stop :=
  image_ne_none_iff.mp (by rw [h]; simp)

/-! ### The map of a list -/

@[simp] theorem imageOf_nil : imageOf ([] : List (Segment τ α)) x = none := rfl

theorem imageOf_cons : imageOf (b :: bs) x = (b.image x).or (imageOf bs x) := rfl

theorem imageOf_append : imageOf (as ++ bs) x = (imageOf as x).or (imageOf bs x) := by
  induction as with
  | nil => simp
  | cons a as ih => rw [List.cons_append, imageOf_cons, imageOf_cons, ih, Option.or_assoc]

theorem imageOf_eq_none_iff : imageOf bs x = none ↔ ∀ b ∈ bs, x < b.start ∨ b.stop ≤ x := by
  induction bs with
  | nil => simp
  | cons b bs ih => rw [imageOf_cons, Option.or_eq_none_iff, ih, image_eq_none_iff, List.forall_mem_cons]

theorem imageOf_ne_none_iff : imageOf bs x ≠ none ↔ ∃ b ∈ bs, b.start ≤ x ∧ x < b.stop := by
  rw [ne_eq, imageOf_eq_none_iff]
  push Not
  rfl

theorem imageOf_eq_some_iff (h : Clear 0 bs) : imageOf bs x = some v ↔ ∃ b ∈ bs, b.image x = some v := by
  induction bs with
  | nil => simp
  | cons b bs ih =>
    obtain ⟨hb, hbs⟩ := List.pairwise_cons.mp h
    rw [imageOf_cons, Option.or_eq_some_iff, ih hbs, List.exists_mem_cons_iff]
    refine or_congr_right ⟨And.right, fun hv => ⟨?_, hv⟩⟩
    obtain ⟨c, hc, hv⟩ := hv
    have hx := mem_of_image hv
    rw [image_eq_none_iff]
    rcases hb c hc with hlt | hlt <;> omega

theorem Clear.mono {g' : ℤ} (h : Clear g bs) (hg : g' ≤ g) : Clear g' bs :=
  List.Pairwise.imp (fun hab => by omega) h

theorem InOrder.clear (h : InOrder g bs) : Clear g bs := List.Pairwise.imp .inl h

theorem Normal.clear (h : Normal bs) : Clear 0 bs := h.inOrder.clear.mono (by decide)

theorem Clear.perm (h : Clear g as) (hp : as.Perm bs) : Clear g bs :=
  (hp.pairwise_iff fun h => h.symm).mp h

theorem Clear.apart (h : Clear g bs) (ha : a ∈ bs) (hb : b ∈ bs) (hab : a ≠ b) :
    a.stop + g ≤ b.start ∨ b.stop + g ≤ a.start := by
  have : Std.Symm fun a b : Segment τ α => a.stop + g ≤ b.start ∨ b.stop + g ≤ a.start := ⟨fun _ _ => Or.symm⟩
  exact List.Pairwise.forall h ha hb hab

theorem imageOf_perm (h : Clear 0 as) (hp : as.Perm bs) : imageOf as = imageOf bs := by
  funext x
  refine Option.ext fun v => ?_
  rw [imageOf_eq_some_iff h, imageOf_eq_some_iff (h.perm hp)]
  simp only [hp.mem_iff]

/-- Where one list has a value the other has none, so the runs of the two do not overlap. -/
theorem clear_append (ha : InOrder 0 as) (hb : InOrder 0 bs) (hane : ∀ a ∈ as, a.data ≠ [])
    (hbne : ∀ b ∈ bs, b.data ≠ []) (h : ∀ x, imageOf as x = none ∨ imageOf bs x = none) : Clear 0 (as ++ bs) := by
  refine List.pairwise_append.mpr ⟨ha.clear, hb.clear, fun a ha b hb => ?_⟩
  have hapos := start_lt_stop_iff.mpr (hane a ha)
  have hbpos := start_lt_stop_iff.mpr (hbne b hb)
  by_contra! hne
  rcases h (max a.start b.start) with hx | hx
  · exact imageOf_ne_none_iff.mpr ⟨a, ha, le_max_left .., by omega⟩ hx
  · exact imageOf_ne_none_iff.mpr ⟨b, hb, le_max_right .., by omega⟩ hx

/-! ### Sorting -/

theorem sort_perm : (sort bs).Perm bs := List.perm_insertionSort _ bs

@[simp] theorem mem_sort : b ∈ sort bs ↔ b ∈ bs := sort_perm.mem_iff

theorem inOrder_sort (hg : 0 ≤ g) (h : Clear g bs) (hne : ∀ b ∈ bs, b.data ≠ []) : InOrder g (sort bs) := by
  have hs : (sort bs).Pairwise fun a b => a.start ≤ b.start :=
    List.pairwise_insertionSort (fun a b : Segment τ α => a.start ≤ b.start) bs
  refine (hs.and (h.perm sort_perm.symm)).imp_of_mem ?_
  rintro a b - hb ⟨hle, hab | hba⟩
  · exact hab
  · have := start_lt_stop_iff.mpr (hne b (mem_sort.mp hb))
    omega

theorem normal_sort (h : Clear 1 bs) (hne : ∀ b ∈ bs, b.data ≠ []) : Normal (sort bs) :=
  ⟨inOrder_sort (by decide) h hne, fun b hb => hne b (mem_sort.mp hb)⟩

theorem sort_eq (h : InOrder 0 bs) : sort bs = bs := by
  refine List.Pairwise.insertionSort_eq (h.imp ?_)
  intro a b hab
  have := @start_le_stop _ _ a
  omega

theorem imageOf_sort (h : Clear 0 bs) : imageOf (sort bs) = imageOf bs := (imageOf_perm h sort_perm.symm).symm

/-! ### Joining -/

theorem image_joined (h : b.stop = c.start) :
    image { b with data := b.data ++ c.data } x = (b.image x).or (c.image x) := by
  rw [image, image, image, Image.ofList_append, ← h]
  rfl

theorem start_le_of_mem_join (h : InOrder 0 (b :: cs)) : ∀ d ∈ join b cs, b.start ≤ d.start := by
  induction cs generalizing b with
  | nil => simp [join]
  | cons c cs ih =>
    obtain ⟨hb, hcs⟩ := List.pairwise_cons.mp h
    rw [join]
    split_ifs with hbc
    · refine ih (b := { b with data := b.data ++ c.data }) ?_
      obtain ⟨hc, hcs⟩ := List.pairwise_cons.mp hcs
      refine List.pairwise_cons.mpr ⟨fun d hd => ?_, hcs⟩
      have := hc d hd
      simp only [stop, List.length_append] at hbc this ⊢
      omega
    · rintro d (_ | ⟨_, hd⟩)
      · exact le_rfl
      · have := ih hcs d hd
        have := hb c (List.mem_cons_self ..)
        have := @start_le_stop _ _ b
        omega

theorem normal_join (h : InOrder 0 (b :: cs)) (hne : ∀ d ∈ b :: cs, d.data ≠ []) : Normal (join b cs) := by
  induction cs generalizing b with
  | nil => exact ⟨List.pairwise_singleton .., hne⟩
  | cons c cs ih =>
    obtain ⟨hb, hcs⟩ := List.pairwise_cons.mp h
    rw [join]
    split_ifs with hbc
    · refine ih (b := { b with data := b.data ++ c.data }) ?_ ?_
      · obtain ⟨hc, hcs⟩ := List.pairwise_cons.mp hcs
        refine List.pairwise_cons.mpr ⟨fun d hd => ?_, hcs⟩
        have := hc d hd
        simp only [stop, List.length_append] at hbc this ⊢
        omega
      · rintro d (_ | ⟨_, hd⟩)
        · exact List.append_ne_nil_of_left_ne_nil (hne b (List.mem_cons_self ..)) _
        · exact hne d (List.mem_cons_of_mem _ (List.mem_cons_of_mem _ hd))
    · have hjoin := ih hcs fun d hd => hne d (List.mem_cons_of_mem _ hd)
      refine ⟨List.pairwise_cons.mpr ⟨fun d hd => ?_, hjoin.inOrder⟩, ?_⟩
      · have := start_le_of_mem_join hcs d hd
        have := hb c (List.mem_cons_self ..)
        omega
      · rintro d (_ | ⟨_, hd⟩)
        · exact hne b (List.mem_cons_self ..)
        · exact hjoin.nonempty d hd

theorem imageOf_join : imageOf (join b cs) = imageOf (b :: cs) := by
  induction cs generalizing b with
  | nil => rfl
  | cons c cs ih =>
    funext x
    rw [join]
    split_ifs with hbc
    · rw [ih, imageOf_cons, imageOf_cons, imageOf_cons, image_joined hbc, Option.or_assoc]
    · rw [imageOf_cons, ih, imageOf_cons, imageOf_cons, imageOf_cons]

/-! ### The normal form -/

theorem Normal.tail (h : Normal (b :: bs)) : Normal bs :=
  ⟨h.inOrder.of_cons, fun c hc => h.nonempty c (List.mem_cons_of_mem _ hc)⟩

theorem Normal.head_lt (h : Normal (b :: bs)) : ∀ c ∈ bs, b.stop < c.start := fun c hc => by
  have := (List.pairwise_cons.mp h.inOrder).1 c hc
  omega

theorem Normal.head_pos (h : Normal (b :: bs)) : b.start < b.stop :=
  start_lt_stop_iff.mpr (h.nonempty b (List.mem_cons_self ..))

theorem Normal.imageOf_tail (h : Normal (b :: bs)) (hx : x < b.stop + 1) : imageOf bs x = none :=
  imageOf_eq_none_iff.mpr fun c hc => by
    have := h.head_lt c hc
    omega

theorem Normal.stop_le_last (h : Normal bs) (hb : bs.getLast? = some b) : b ∈ bs ∧ ∀ c ∈ bs, c.stop ≤ b.stop := by
  refine ⟨List.mem_of_getLast? hb, fun c hc => ?_⟩
  obtain ⟨cs, rfl⟩ := List.getLast?_eq_some_iff.mp hb
  rcases List.mem_append.mp hc with hc | hc
  · have := (List.pairwise_append.mp h.inOrder).2.2 c hc b (List.mem_singleton_self b)
    have := @start_le_stop _ _ b
    omega
  · rw [List.mem_singleton.mp hc]

theorem Normal.first_eq (h : Normal (b :: bs)) : (imageOf (b :: bs)).first = b.start := by
  refine IsLeast.csInf_eq ⟨imageOf_ne_none_iff.mpr ⟨b, List.mem_cons_self .., le_rfl, h.head_pos⟩, fun x hx => ?_⟩
  obtain ⟨c, hc, hle, -⟩ := imageOf_ne_none_iff.mp hx
  rcases List.mem_cons.mp hc with rfl | hc
  · exact hle
  · have := h.head_lt c hc
    have := h.head_pos
    omega

theorem Normal.last_eq (h : Normal bs) (hb : bs.getLast? = some b) : (imageOf bs).last = b.stop - 1 := by
  obtain ⟨hmem, hle⟩ := h.stop_le_last hb
  have := start_lt_stop_iff.mpr (h.nonempty b hmem)
  refine IsGreatest.csSup_eq ⟨imageOf_ne_none_iff.mpr ⟨b, hmem, by omega, by omega⟩, fun x hx => ?_⟩
  obtain ⟨c, hc, -, hlt⟩ := imageOf_ne_none_iff.mp hx
  have := hle c hc
  omega

/-- The first run of a normal list begins where the first run of another list with the same map does, or before. -/
private theorem Normal.start_le (ha : Normal (a :: as)) (hb : Normal (b :: bs))
    (h : imageOf (a :: as) = imageOf (b :: bs)) : b.start ≤ a.start := by
  have hs : imageOf (a :: as) a.start ≠ none :=
    imageOf_ne_none_iff.mpr ⟨a, List.mem_cons_self .., le_rfl, ha.head_pos⟩
  rw [h, imageOf_ne_none_iff] at hs
  obtain ⟨c, hc, hle, -⟩ := hs
  rcases List.mem_cons.mp hc with rfl | hc
  · exact hle
  · have := hb.head_lt c hc
    have := hb.head_pos
    omega

private theorem Normal.stop_le (ha : Normal (a :: as))
    (h : imageOf (a :: as) = imageOf (b :: bs)) (hs : a.start = b.start) : b.stop ≤ a.stop := by
  by_contra! hlt
  have hn : imageOf (b :: bs) a.stop ≠ none :=
    imageOf_ne_none_iff.mpr ⟨b, List.mem_cons_self .., by rw [← hs]; exact ha.head_pos.le, hlt⟩
  rw [← h, imageOf_cons, ha.imageOf_tail (by omega), Option.or_none, image_ne_none_iff] at hn
  omega

/-- The start and the values of a run. -/
def content (b : Segment τ α) : ℤ × List α := (b.start, b.data)

/-- A list in normal form is determined by its map. -/
theorem Normal.ext (ha : Normal as) (hb : Normal bs) (h : imageOf as = imageOf bs) :
    as.map content = bs.map content := by
  induction as generalizing bs with
  | nil =>
    cases bs with
    | nil => rfl
    | cons b bs =>
      have hs : imageOf (b :: bs) b.start ≠ none :=
        imageOf_ne_none_iff.mpr ⟨b, List.mem_cons_self .., le_rfl, hb.head_pos⟩
      rw [← h] at hs
      exact absurd rfl hs
  | cons a as ih =>
    cases bs with
    | nil =>
      have hs : imageOf (a :: as) a.start ≠ none :=
        imageOf_ne_none_iff.mpr ⟨a, List.mem_cons_self .., le_rfl, ha.head_pos⟩
      rw [h] at hs
      exact absurd rfl hs
    | cons b bs =>
      have hstart : a.start = b.start := le_antisymm (hb.start_le ha h.symm) (ha.start_le hb h)
      have hstop : a.stop = b.stop := le_antisymm (hb.stop_le h.symm hstart.symm) (ha.stop_le h hstart)
      have hdata : a.data = b.data := by
        refine Image.ofList_injective (s := a.start) (funext fun x => ?_)
        have hx := congrFun h x
        rcases lt_or_ge x a.stop with hlt | hge
        · rwa [imageOf_cons, imageOf_cons, ha.imageOf_tail (by omega), hb.imageOf_tail (by omega), Option.or_none,
            Option.or_none, image, image, ← hstart] at hx
        · have hge' : b.stop ≤ x := hstop ▸ hge
          rw [Image.ofList_eq_none_iff.mpr (.inr hge), Image.ofList_eq_none_iff.mpr (.inr (by rwa [hstart]))]
      have htail : imageOf as = imageOf bs := by
        funext x
        have hx := congrFun h x
        rcases lt_or_ge x a.stop with hlt | hge
        · rw [ha.imageOf_tail (by omega), hb.imageOf_tail (by omega)]
        · rwa [imageOf_cons, imageOf_cons, image_eq_none_iff.mpr (.inr hge), image_eq_none_iff.mpr (.inr (hstop ▸ hge)),
            Option.none_or, Option.none_or] at hx
      rw [List.map_cons, List.map_cons, ih ha.tail hb.tail htail, content, content, hstart, hdata]

end Segment

end Qcc730.Lib
