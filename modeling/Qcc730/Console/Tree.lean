import Qcc730.Console.Groups

/-! The tree of the console groups.

    In every run the allocated blocks are a tree: each group has its parent above it, and is once in the list of its
    parent. A call that unregisters a group walks through the subtree while it takes it apart. For the walk a state
    counts that has the subtree as it was before the call; what it does to the rest is one link. -/

namespace Qcc730.Console.Groups
open Lib

namespace Context

/-! ### The tree -/

/-- The next subgroup of the same parent. -/
def next (s : Context) (a : ℕ) : Option ℕ := (s.heap a).bind (·.next)

def parent (s : Context) (a : ℕ) : Option ℕ := (s.heap a).bind (·.parentGroup)

/-- The blocks that are allocated are a tree with root `Root_Group`; `kids` are the subgroups in the order of their
    list, which are the groups with this parent, each of them once, since a list that ends has no node twice. The
    current group is one of them. -/
structure Menu (s : Context) (kids : ℕ → List ℕ) : Prop where
  rooted : Rooted s.parent rootGroup
  live : ∀ a, (s.heap a).isSome ↔ Below s.parent a rootGroup
  list : ∀ g e, s.heap g = some e → Path s.next e.subgroupList (kids g) none
  mem : ∀ g c, (s.heap g).isSome → (c ∈ kids g ↔ s.parent c = some g)
  named : ∀ g e, s.heap g = some e → g ≠ rootGroup → e.commandGroup.isSome
  current : ∃ c, s.currentGroup = some c ∧ (s.heap c).isSome

theorem next_of_heap {s : Context} {a : ℕ} {e : Entry} (h : s.heap a = some e) : s.next a = e.next := by
  rw [next, h, Option.bind_some]

theorem parent_of_heap {s : Context} {a : ℕ} {e : Entry} (h : s.heap a = some e) : s.parent a = e.parentGroup := by
  rw [parent, h, Option.bind_some]

theorem exists_of_next {s : Context} {a b : ℕ} (h : s.next a = some b) : ∃ e, s.heap a = some e ∧ e.next = some b :=
  Option.bind_eq_some_iff.mp h

theorem exists_of_parent {s : Context} {a b : ℕ} (h : s.parent a = some b) :
    ∃ e, s.heap a = some e ∧ e.parentGroup = some b :=
  Option.bind_eq_some_iff.mp h

@[simp] theorem store_heap_self (s : Context) (a : ℕ) (e : Entry) : (s.store a e).heap a = some e := by simp [store]

theorem store_heap_of_ne (s : Context) {a b : ℕ} (e : Entry) (h : b ≠ a) : (s.store a e).heap b = s.heap b := by
  simp [store, h]

@[simp] theorem store_currentGroup (s : Context) (a : ℕ) (e : Entry) :
    (s.store a e).currentGroup = s.currentGroup := rfl

@[simp] theorem store_freed (s : Context) (a : ℕ) (e : Entry) : (s.store a e).freed = s.freed := rfl

/-! ### Links -/

/-- The link that is behind `z` in the list of the group at `p`, or at its start, is set to `v`. -/
def setLink (s : Context) (p : ℕ) (z v : Option ℕ) : Context :=
  match z with
  | none => { s with heap := Function.update s.heap p ((s.heap p).map fun e => { e with subgroupList := v }) }
  | some z => { s with heap := Function.update s.heap z ((s.heap z).map fun e => { e with next := v }) }

/-- The group at `g` is taken out of its parent's list, where `A` stands in front of it. -/
def unlinked (s : Context) (g p : ℕ) (A : List ℕ) : Context := s.setLink p A.getLast? (s.next g)

section SetLink

variable (s : Context) (p : ℕ) (z v : Option ℕ) (a : ℕ)

@[simp] theorem setLink_currentGroup : (s.setLink p z v).currentGroup = s.currentGroup := by
  cases z <;> rfl

@[simp] theorem setLink_freed : (s.setLink p z v).freed = s.freed := by
  cases z <;> rfl

theorem setLink_heap : (s.setLink p z v).heap a = (s.heap a).map fun e => { e with
    next := if z = some a then v else e.next
    subgroupList := if z = none ∧ a = p then v else e.subgroupList } := by
  cases z with
  | none =>
    by_cases h : a = p
    · simp [setLink, h]
    · simp [setLink, h]
  | some z =>
    by_cases h : a = z
    · simp [setLink, h]
    · simp [setLink, h, Ne.symm h]

theorem setLink_parent : (s.setLink p z v).parent = s.parent := by
  funext a
  rw [parent, setLink_heap, parent]
  cases s.heap a <;> rfl

variable {s p z v a}

theorem setLink_isSome : ((s.setLink p z v).heap a).isSome ↔ (s.heap a).isSome := by
  rw [setLink_heap, Option.isSome_map]

theorem setLink_heap_of_ne (hp : a ≠ p) (hz : z ≠ some a) : (s.setLink p z v).heap a = s.heap a := by
  simp [setLink_heap, hp, hz]

/-- The links behind the groups, when there is a group at `z`. -/
theorem setLink_next (hz : ∀ b ∈ z, (s.heap b).isSome) : (s.setLink p z v).next = relink s.next z v := by
  funext a
  rw [next, setLink_heap]
  cases z with
  | none => simp [relink, next, Option.bind_map]
  | some z =>
    by_cases h : a = z
    · obtain ⟨e, he⟩ := Option.isSome_iff_exists.mp (hz z rfl)
      simp [relink, h, he]
    · simp [relink, h, Ne.symm h, next]

/-- An entry after the link is set, from the one before. -/
theorem setLink_entry {e : Entry} (h : (s.setLink p z v).heap a = some e) :
    ∃ e₀, s.heap a = some e₀ ∧ e.commandGroup = e₀.commandGroup ∧
      e.subgroupList = if a = p then restart e₀.subgroupList z v else e₀.subgroupList := by
  rw [setLink_heap] at h
  obtain ⟨e₀, he₀, rfl⟩ := Option.map_eq_some_iff.mp h
  refine ⟨e₀, he₀, rfl, ?_⟩
  cases z <;> by_cases ha : a = p <;> simp [restart, ha]

/-- A link that is set in one list is not one of another. -/
theorem relink_of_parent_ne {k x : ℕ} (hk : s.parent k = some x) (hx : x ≠ p) (hz : ∀ b ∈ z, s.parent b = some p) :
    relink s.next z v k = s.next k := by
  cases z with
  | none => rfl
  | some z =>
    refine Function.update_of_ne ?_ _ _
    rintro rfl
    exact hx (Option.some.inj (hk.symm.trans (hz k rfl)))

end SetLink

/-! ### Linking out -/

section Links

variable {s : Context} {group p z : ℕ} {q : Option ℕ} {A B : List ℕ} {e : Entry}

/-- A list without repetitions starts with something else than what stands further behind. -/
theorem head?_ne_of_nodup (h : (A ++ z :: group :: B).Nodup) : (A ++ [z]).head? ≠ some group := by
  intro heq
  rw [show A ++ z :: group :: B = (A ++ [z]) ++ group :: B by simp, List.nodup_append] at h
  exact h.2.2 group (List.mem_of_head? heq) group List.mem_cons_self rfl

/-- The loop finds the entry in front of the group. -/
theorem entryBefore_returns (h : Path s.next q (A ++ z :: group :: B) none) :
    Returns (fun n => s.entryBefore group n q) (some z) := by
  induction A generalizing q with
  | nil =>
    obtain ⟨rfl, hz, -⟩ := h
    obtain ⟨e, he, hnext⟩ := exists_of_next hz
    exact .of_eq (n := 1) (by simp [entryBefore, he, hnext])
  | cons a A ih =>
    have hnodup := h.nodup
    obtain ⟨rfl, h⟩ := h
    -- the next one is not the group, which stands further behind
    have hhead : s.next a = (A ++ [z]).head? := by
      have := h.head?_eq
      cases A <;> simpa using this
    have hne : s.next a ≠ some group := by
      rw [hhead]
      exact head?_ne_of_nodup (List.nodup_cons.mp hnodup).2
    obtain ⟨b, hb⟩ : ∃ b, s.next a = some b := by
      rw [hhead]
      cases A <;> simp
    obtain ⟨e, he, hnext⟩ := exists_of_next hb
    refine .succ ?_
    obtain ⟨n, hn⟩ := ih (q := s.next a) h
    refine .of_eq (n := n) ?_
    rw [next_of_heap he] at hne hn
    simp only [entryBefore, he, Option.bind_some, if_neg hne]
    exact hn

/-- The first part of the call. -/
theorem unlink_returns {g : Entry} (hg : s.heap group = some g) (hparent : g.parentGroup = some p)
    (he : s.heap p = some e) (h : Path s.next e.subgroupList (A ++ group :: B) none) :
    Returns (fun n => s.unlink n group) (true, s.unlinked group p A) := by
  have hnextg : s.next group = g.next := next_of_heap hg
  obtain rfl | ⟨A, z, rfl⟩ := A.eq_nil_or_concat
  · have hhead : e.subgroupList = some group := h.head?_eq
    refine .of_eq (n := 0) ?_
    simp [unlink, hg, hparent, he, hhead, unlinked, setLink, store, hnextg]
  · rw [List.concat_eq_append, List.append_assoc, List.singleton_append] at h
    have hz : s.next z = some group := by
      obtain ⟨-, -, -, hz, -⟩ := Path.append_iff.mp h
      exact hz
    obtain ⟨ez, hez, -⟩ := exists_of_next hz
    have hne : e.subgroupList ≠ some group := by
      have hhead : e.subgroupList = (A ++ [z]).head? := by
        have := h.head?_eq
        cases A <;> simpa using this
      rw [hhead]
      exact head?_ne_of_nodup h.nodup
    obtain ⟨n, hn⟩ := entryBefore_returns h
    refine .of_eq (n := n) ?_
    simp [unlink, hg, hparent, he, hne, hn, hez, unlinked, setLink, store, hnextg]

end Links

/-! ### Unregistering a subtree -/

/-- The blocks of `D` are released, each once, and the others are as they were; when the current group was one of
    `D`, it is the group at `p` now. -/
structure Released (D : ℕ → Prop) (p : ℕ) (s t : Context) : Prop where
  gone : ∀ a, D a → t.heap a = none
  kept : ∀ a, ¬ D a → t.heap a = s.heap a
  moved : ∀ c, s.currentGroup = some c → D c → t.currentGroup = some p
  stays : ∀ c, s.currentGroup = some c → ¬ D c → t.currentGroup = some c
  freed : ∃ L, t.freed = s.freed ++ L ∧ L.Nodup ∧ ∀ a, a ∈ L ↔ D a

theorem Released.congr {D D' : ℕ → Prop} {p : ℕ} {s t : Context} (h : Released D p s t) (hD : ∀ a, D' a ↔ D a) :
    Released D' p s t := by
  rwa [show D' = D from funext fun a => propext (hD a)]

/-- Only the block at `p` is another one. -/
structure ButAt (p : ℕ) (s t : Context) : Prop where
  heap : ∀ a, a ≠ p → t.heap a = s.heap a
  currentGroup : t.currentGroup = s.currentGroup
  freed : t.freed = s.freed

theorem butAt_store (s : Context) (p : ℕ) (e : Entry) : ButAt p s (s.store p e) :=
  ⟨fun _ ha => s.store_heap_of_ne e ha, rfl, rfl⟩

/-- One release after another, of blocks that have nothing in common; the group at `p` they belong to, which changes
    meanwhile, is not one of them. -/
theorem Released.trans {D D' : ℕ → Prop} {p : ℕ} {u u' v v' w : Context} (h : Released D p u u')
    (h' : Released D' p v v') (hu : ButAt p w u) (hv : ButAt p u' v) (hw : w.heap p = v.heap p) (hp : ¬ D p)
    (hp' : ¬ D' p) (hdisj : ∀ a, D a → ¬ D' a) : Released (fun a => D a ∨ D' a) p w v' := by
  have hmoved : ∀ c, w.currentGroup = some c → D c → v'.currentGroup = some p := by
    intro c hc hD
    exact h'.stays p (hv.currentGroup.trans (h.moved c (hu.currentGroup.trans hc) hD)) hp'
  have hstays : ∀ c, w.currentGroup = some c → ¬ D c → v.currentGroup = some c := by
    intro c hc hD
    exact hv.currentGroup.trans (h.stays c (hu.currentGroup.trans hc) hD)
  refine ⟨?_, fun a ha => ?_, ?_, fun c hc hD => ?_, ?_⟩
  · rintro a (ha | ha)
    · have hne : a ≠ p := by
        rintro rfl
        exact hp ha
      rw [h'.kept a (hdisj a ha), hv.heap a hne]
      exact h.gone a ha
    · exact h'.gone a ha
  · rw [not_or] at ha
    rw [h'.kept a ha.2]
    by_cases hne : a = p
    · rw [hne, hw]
    · rw [hv.heap a hne, h.kept a ha.1, hu.heap a hne]
  · rintro c hc (hD | hD)
    · exact hmoved c hc hD
    · exact h'.moved c (hstays c hc fun hD' => hdisj c hD' hD) hD
  · rw [not_or] at hD
    exact h'.stays c (hstays c hc hD.1) hD.2
  · obtain ⟨L, hL, hnodup, hmem⟩ := h.freed
    obtain ⟨L', hL', hnodup', hmem'⟩ := h'.freed
    refine ⟨L ++ L', ?_, ?_, fun a => ?_⟩
    · rw [hL', hv.freed, hL, hu.freed, List.append_assoc]
    · refine List.nodup_append.mpr ⟨hnodup, hnodup', ?_⟩
      rintro a ha _ ha' rfl
      exact hdisj a ((hmem a).mp ha) ((hmem' a).mp ha')
    · rw [List.mem_append, hmem, hmem']

section Unregister

variable {s : Context} {kids : ℕ → List ℕ} {g p : ℕ}

/-- What the call for the group at `g` does in every state that has the subtree as `s` has it. -/
def Unregisters (s : Context) (g : ℕ) : Prop :=
  ∀ (t : Context) (A B : List ℕ) (p : ℕ) (e : Entry), s.parent g = some p →
    (∀ a, Below s.parent a g → t.heap a = s.heap a) → t.heap p = some e →
    Path t.next e.subgroupList (A ++ g :: B) none → (∀ a ∈ p :: A, ¬ Below s.parent a g) →
    ∃ r t', Returns (fun n => unregisterGroup n t g) (r, t') ∧
      Released (fun a => Below s.parent a g) p (t.unlinked g p A) t'

/-- The loop over the subgroups: each of them is the head of the list when it is unregistered. -/
theorem unregisterSubgroups_returns (hm : s.Menu kids) (hg : Below s.parent g rootGroup) (ks : List ℕ)
    (hparent : ∀ k ∈ ks, s.parent k = some g) (hrec : ∀ k ∈ ks, s.Unregisters k) :
    ∀ (t : Context) (e : Entry) (ret : Bool),
    t.heap g = some e → Path t.next e.subgroupList ks none →
    (∀ k ∈ ks, ∀ a, Below s.parent a k → t.heap a = s.heap a) →
    ∃ r t', Returns (fun n => unregisterSubgroups n t e.subgroupList ret) (r, t') ∧
      Released (fun a => ∃ k ∈ ks, Below s.parent a k) g (t.store g { e with subgroupList := none }) t' := by
  induction ks with
  | nil =>
    intro t e ret he hpath _
    have hnone : e.subgroupList = none := hpath
    have hsame : t.store g { e with subgroupList := none } = t := by
      have : ({ e with subgroupList := none } : Entry) = e := by rw [← hnone]
      rw [this, store, ← he, Function.update_eq_self]
    rw [hnone, hsame]
    refine ⟨ret, t, .of_eq (n := 0) rfl, fun a ha => ?_, fun _ _ => rfl, fun c _ hD => ?_, fun c hc _ => hc, [], ?_⟩
    · simp at ha
    · simp at hD
    · simp
  | cons k ks ih =>
    intro t e ret he hpath hagree
    have hnodup := hpath.nodup
    obtain ⟨hhead, hpath'⟩ := hpath
    have hk : s.parent k = some g := hparent k List.mem_cons_self
    have hnot : ∀ c, s.parent c = some g → ¬ Below s.parent g c := fun c hc =>
      hm.rooted.not_below_of_parent (Below.up hc hg) hc
    -- the other subtrees are apart from this one
    have hapart : ∀ k' ∈ ks, ∀ a, Below s.parent a k' → ¬ Below s.parent a k := by
      intro k' hk' a ha ha'
      have hne : k ≠ k' := fun heq => (List.nodup_cons.mp hnodup).1 (heq ▸ hk')
      exact hm.rooted.children_apart hg hk (hparent k' (List.mem_cons_of_mem k hk')) hne ha' ha
    obtain ⟨ek, hek⟩ : ∃ ek, t.heap k = some ek := by
      rw [hagree k List.mem_cons_self k (Below.refl k)]
      obtain ⟨ek, hek, -⟩ := exists_of_parent hk
      exact ⟨ek, hek⟩
    have hnext : t.next k = ek.next := next_of_heap hek
    -- the call for the first one
    obtain ⟨r, t₁, hcall, hfree⟩ := hrec k List.mem_cons_self t [] ks g e hk (hagree k List.mem_cons_self) he
      ⟨hhead, hpath'⟩ (by simpa using hnot k hk)
    have hunlinked : t.unlinked k g [] = t.store g { e with subgroupList := ek.next } := by
      simp [unlinked, setLink, store, he, hnext]
    rw [hunlinked] at hfree
    have hg₁ : t₁.heap g = some { e with subgroupList := ek.next } := by
      rw [hfree.kept g (hnot k hk), store_heap_self]
    have hsame : ∀ a, a ≠ g → ¬ Below s.parent a k → t₁.heap a = t.heap a := by
      intro a hne ha
      rw [hfree.kept a ha, store_heap_of_ne _ _ hne]
    have hkids : ∀ k' ∈ ks, ∀ a, Below s.parent a k' → t₁.heap a = t.heap a := by
      intro k' hk' a ha
      refine hsame a ?_ (hapart k' hk' a ha)
      rintro rfl
      exact hnot k' (hparent k' (List.mem_cons_of_mem k hk')) ha
    -- the rest of the loop
    obtain ⟨r', t₂, hloop, hfree'⟩ := ih (fun k' hk' => hparent k' (List.mem_cons_of_mem k hk'))
      (fun k' hk' => hrec k' (List.mem_cons_of_mem k hk')) t₁ _ (ret || r) hg₁
      (by
        rw [hnext] at hpath'
        exact hpath'.congr fun b hb => by rw [next, next, hkids b hb b (Below.refl b)])
      fun k' hk' a ha => (hkids k' hk' a ha).trans (hagree k' (List.mem_cons_of_mem k hk') a ha)
    refine ⟨r', t₂, ?_, ?_⟩
    · rw [hhead]
      refine .succ ?_
      simp only [unregisterSubgroups, hek, Option.bind_some]
      exact hcall.bind (unregisterGroup_steady t k) (unregisterSubgroups_steady t₁ ek.next _) hloop
    · refine (hfree.trans hfree' (w := t.store g { e with subgroupList := none }) ⟨fun a ha => ?_, rfl, rfl⟩
        (butAt_store _ _ _) (by simp) (hnot k hk) ?_ ?_).congr fun a => by simp
      · rw [store_heap_of_ne _ _ ha, store_heap_of_ne _ _ ha]
      · rintro ⟨k', hk', hb⟩
        exact hnot k' (hparent k' (List.mem_cons_of_mem k hk')) hb
      · rintro a ha ⟨k', hk', ha'⟩
        exact hapart k' hk' a ha' ha

/-- The end of the call: after its subgroups the group itself is released, and the current group moves up once more if
    it is this one by then. -/
theorem leave_released {D : ℕ → Prop} {u t : Context} {e : Entry} (h : Released D g (u.store g e) t) (hg : ¬ D g)
    (hp : e.parentGroup = some p) (ret : Bool) :
    ∃ r t', t.leave g ret = some (r, t') ∧ Released (fun a => a = g ∨ D a) p u t' := by
  have htg : t.heap g = some e := (h.kept g hg).trans (store_heap_self u g e)
  have hgone : ∀ a, a = g ∨ D a → Function.update t.heap g none a = none := by
    intro a ha
    by_cases hag : a = g
    · rw [hag, Function.update_self]
    · rw [Function.update_of_ne hag]
      exact h.gone a (ha.resolve_left hag)
  have hkept : ∀ a, ¬ (a = g ∨ D a) → Function.update t.heap g none a = u.heap a := by
    intro a ha
    rw [not_or] at ha
    rw [Function.update_of_ne ha.1, h.kept a ha.2, store_heap_of_ne _ _ ha.1]
  have hmoved : ∀ c, u.currentGroup = some c → c = g ∨ D c → t.currentGroup = some g := by
    rintro c hc (rfl | hD)
    · exact h.stays c hc hg
    · exact h.moved c hc hD
  have hfreed : ∃ L, t.freed ++ [g] = u.freed ++ L ∧ L.Nodup ∧ ∀ a, a ∈ L ↔ a = g ∨ D a := by
    obtain ⟨L, hL, hnodup, hmem⟩ := h.freed
    refine ⟨L ++ [g], by rw [hL, store_freed, List.append_assoc], ?_, fun a => ?_⟩
    · refine List.nodup_append.mpr ⟨hnodup, List.nodup_singleton g, ?_⟩
      intro a ha b hb hab
      rw [List.mem_singleton] at hb
      exact hg ((hmem g).mp (by rwa [← hb, ← hab]))
    · rw [List.mem_append, hmem, List.mem_singleton, or_comm]
  by_cases hcur : t.currentGroup = some g
  · refine ⟨true, { t with currentGroup := e.parentGroup }.free g, by rw [leave, if_pos hcur, htg, Option.map_some],
      hgone, hkept, fun _ _ _ => hp, fun c hc hD => ?_, hfreed⟩
    rw [not_or] at hD
    obtain rfl : g = c := Option.some.inj (hcur.symm.trans (h.stays c hc hD.2))
    exact absurd rfl hD.1
  · refine ⟨ret, t.free g, by rw [leave, if_neg hcur], hgone, hkept, fun c hc hD => ?_, fun c hc hD => ?_, hfreed⟩
    · exact absurd (hmoved c hc hD) hcur
    · rw [not_or] at hD
      exact h.stays c hc hD.2

/-- A subtree is the group and the subtrees of its subgroups. -/
theorem Menu.below_iff (hm : s.Menu kids) (hg : (s.heap g).isSome) {a : ℕ} :
    Below s.parent a g ↔ a = g ∨ ∃ k ∈ kids g, Below s.parent a k := by
  rw [Below.iff_child]
  exact or_congr_right ⟨fun ⟨k, hk, ha⟩ => ⟨k, (hm.mem g k hg).mpr hk, ha⟩,
    fun ⟨k, hk, ha⟩ => ⟨k, (hm.mem g k hg).mp hk, ha⟩⟩

/-- The call releases the subtree. -/
theorem unregisters (hm : s.Menu kids) (hg : Below s.parent g rootGroup) : s.Unregisters g := by
  refine hm.rooted.induction (P := s.Unregisters) (fun g hg hrec => ?_) hg
  intro t A B p e hparent hagree he hpath hout
  have hlive := (hm.live g).mpr hg
  obtain ⟨eg, heg, hegp⟩ := exists_of_parent hparent
  have htg : t.heap g = some eg := (hagree g (Below.refl g)).trans heg
  have hunlink := unlink_returns htg hegp he hpath
  set u := t.unlinked g p A with hu
  have hsame : ∀ a, Below s.parent a g → u.heap a = s.heap a := by
    intro a ha
    have hne : a ≠ p := by
      rintro rfl
      exact hout a List.mem_cons_self ha
    have hlast : A.getLast? ≠ some a := fun hA => hout a (List.mem_cons_of_mem p (List.mem_of_getLast? hA)) ha
    rw [hu, unlinked, setLink_heap_of_ne hne hlast]
    exact hagree a ha
  have hug : u.heap g = some eg := (hsame g (Below.refl g)).trans heg
  have hkids : ∀ k ∈ kids g, s.parent k = some g := fun k hk => (hm.mem g k hlive).mp hk
  have hself : ¬ ∃ k ∈ kids g, Below s.parent g k := by
    rintro ⟨k, hk, hb⟩
    exact hm.rooted.not_below_of_parent (Below.up (hkids k hk) hg) (hkids k hk) hb
  -- the subgroups
  obtain ⟨r, t', hloop, hfree⟩ := unregisterSubgroups_returns hm hg (kids g) hkids (fun k hk => hrec k (hkids k hk))
    u eg false hug ((hm.list g eg heg).congr fun k hk => by
      rw [next, next, hsame k (Below.of_parent (hkids k hk))])
    fun k hk a ha => hsame a ((hm.below_iff hlive).mpr (.inr ⟨k, hk, ha⟩))
  -- the group itself
  obtain ⟨r', t'', hleave, hfree'⟩ := leave_released hfree hself hegp r
  refine ⟨r', t'', ?_, hfree'.congr fun a => hm.below_iff hlive⟩
  obtain ⟨m, hm'⟩ := hunlink.eventually (unlink_steady t g)
  obtain ⟨n, hn⟩ := hloop.eventually (unregisterSubgroups_steady u _ false)
  refine .succ (.of_eq (n := max m n) ?_)
  simp only [unregisterGroup, hm' _ (le_max_left m n), Option.bind_some, hug, hn _ (le_max_right m n), hleave]

section OfReleased

variable {t : Context} {A B : List ℕ} (hm : s.Menu kids) (hg : Below s.parent g rootGroup) (hp : s.parent g = some p)
  (hk : kids p = A ++ g :: B) (h : Released (fun a => Below s.parent a g) p (s.unlinked g p A) t)

include h in
theorem Released.not_below {x : ℕ} (hx : (t.heap x).isSome) : ¬ Below s.parent x g := by
  intro hb
  simp [h.gone x hb] at hx

include h in
theorem Released.parent_kept {a : ℕ} (ha : ¬ Below s.parent a g) : t.parent a = s.parent a := by
  rw [parent, h.kept a ha, ← parent, unlinked, setLink_parent]

include h in
theorem Released.parent_gone {a : ℕ} (ha : Below s.parent a g) : t.parent a = none := by
  rw [parent, h.gone a ha, Option.bind_none]

include hm hg hp hk

theorem Menu.mem_siblings (c : ℕ) : c ∈ A ++ g :: B ↔ s.parent c = some p :=
  hk ▸ hm.mem p c ((hm.live p).mpr (hm.rooted.parent_below hg hp))

omit hk in
/-- The other subgroups of the parent are not in the subtree. -/
theorem Menu.sibling_not_below {c : ℕ} (hc : s.parent c = some p) (hcg : c ≠ g) : ¬ Below s.parent c g := by
  intro hb
  rcases (Below.iff_of_parent hc).mp hb with heq | hb
  · exact hcg heq
  · exact hm.rooted.not_below_of_parent hg hp hb

include h

theorem Menu.next_kept {a : ℕ} (ha : ¬ Below s.parent a g) : t.next a = relink s.next A.getLast? (s.next g) a := by
  have hA : ∀ z ∈ A.getLast?, (s.heap z).isSome := by
    intro z hz
    have hz' : s.parent z = some p :=
      (hm.mem_siblings hg hp hk z).mp (List.mem_append_left _ (List.mem_of_getLast? hz))
    obtain ⟨e, he, -⟩ := exists_of_parent hz'
    rw [he]
    rfl
  rw [next, h.kept a ha, ← next, unlinked, setLink_next hA]

/-- The list of a group that is left: that of the parent without the group, the others as they were. -/
theorem Menu.list_kept {x : ℕ} {e : Entry} (hx : t.heap x = some e) :
    Path t.next e.subgroupList (Function.update kids p (A ++ B) x) none := by
  have hxg := h.not_below (Option.isSome_of_eq_some hx)
  rw [h.kept x hxg] at hx
  obtain ⟨e₀, he₀, -, hsub⟩ := setLink_entry hx
  have hlist := hm.list x e₀ he₀
  rw [hsub]
  by_cases hxp : x = p
  · subst hxp
    rw [if_pos rfl, Function.update_self]
    rw [hk] at hlist
    refine hlist.unlink.congr fun a ha => ?_
    have hag : a ≠ g := by
      rintro rfl
      exact absurd hlist.nodup (by
        rw [List.nodup_middle, List.nodup_cons]
        exact fun hn => hn.1 ha)
    have hmem : a ∈ A ++ g :: B := by
      rcases List.mem_append.mp ha with ha | ha
      · exact List.mem_append_left _ ha
      · exact List.mem_append_right _ (List.mem_cons_of_mem g ha)
    rw [Function.update_of_ne hag]
    exact hm.next_kept hg hp hk h (hm.sibling_not_below hg hp ((hm.mem_siblings hg hp hk a).mp hmem) hag)
  · rw [if_neg hxp, Function.update_of_ne hxp]
    refine hlist.congr fun a ha => ?_
    have hax : s.parent a = some x := (hm.mem x a (by simp [he₀])).mp ha
    have hag : ¬ Below s.parent a g := by
      intro hb
      rcases (Below.iff_of_parent hax).mp hb with rfl | hb
      · exact hxp (Option.some.inj (hax.symm.trans hp))
      · exact hxg hb
    rw [hm.next_kept hg hp hk h hag]
    exact relink_of_parent_ne hax hxp fun z hz =>
      (hm.mem_siblings hg hp hk z).mp (List.mem_append_left _ (List.mem_of_getLast? hz))

/-- The subgroups of a group that is left are those with this parent. -/
theorem Menu.mem_kept {x c : ℕ} (hx : (t.heap x).isSome) :
    c ∈ Function.update kids p (A ++ B) x ↔ t.parent c = some x := by
  have hxg := h.not_below hx
  rw [h.kept x hxg, unlinked, setLink_isSome] at hx
  have hc : t.parent c = some x ↔ s.parent c = some x ∧ c ≠ g := by
    by_cases hcg : Below s.parent c g
    · rw [h.parent_gone hcg]
      refine iff_of_false (Option.some_ne_none x).symm ?_
      rintro ⟨hcx, hne⟩
      exact ((Below.iff_of_parent hcx).mp hcg).elim hne hxg
    · rw [h.parent_kept hcg]
      refine (and_iff_left ?_).symm
      rintro rfl
      exact hcg (Below.refl c)
  rw [hc, ← hm.mem x c hx]
  by_cases hxp : x = p
  · subst hxp
    obtain ⟨e, he⟩ := Option.isSome_iff_exists.mp hx
    have hnodup := (hm.list x e he).nodup
    rw [hk, List.nodup_middle, List.nodup_cons] at hnodup
    rw [Function.update_self, hk]
    constructor
    · intro hcAB
      refine ⟨by simp only [List.mem_append, List.mem_cons] at hcAB ⊢; tauto, ?_⟩
      rintro rfl
      exact hnodup.1 hcAB
    · rintro ⟨hcK, hcg⟩
      simp only [List.mem_append, List.mem_cons] at hcK ⊢
      tauto
  · rw [Function.update_of_ne hxp]
    refine (and_iff_left_of_imp ?_).symm
    rintro hcx rfl
    exact hxp (Option.some.inj (((hm.mem x c hx).mp hcx).symm.trans hp))

/-- The tree without the subtree. -/
theorem Menu.of_released (hne : g ≠ rootGroup) : t.Menu (Function.update kids p (A ++ B)) := by
  have hroot : ¬ Below s.parent rootGroup g := fun hb => hne (hm.rooted.eq_root hb)
  have hgone : ∀ a, Below s.parent a g → t.parent a = none := fun a ha => h.parent_gone ha
  have hkept : ∀ a, ¬ Below s.parent a g → t.parent a = s.parent a := fun a ha => h.parent_kept ha
  refine ⟨hm.rooted.cut hroot hgone hkept, fun a => ?_, fun x e hx => hm.list_kept hg hp hk h hx,
    fun x c hx => hm.mem_kept hg hp hk h hx, fun x e hx hxr => ?_, ?_⟩
  · rw [hm.rooted.below_cut_iff hroot hgone hkept]
    by_cases ha : Below s.parent a g
    · simp [h.gone a ha, ha]
    · rw [h.kept a ha, unlinked, setLink_isSome, hm.live, and_iff_left ha]
  · have hxg := h.not_below (Option.isSome_of_eq_some hx)
    rw [h.kept x hxg] at hx
    obtain ⟨e₀, he₀, hname, -⟩ := setLink_entry hx
    rw [hname]
    exact hm.named x e₀ he₀ hxr
  · obtain ⟨c, hc, hclive⟩ := hm.current
    have hc' : (s.unlinked g p A).currentGroup = some c := by rw [unlinked, setLink_currentGroup, hc]
    by_cases hcg : Below s.parent c g
    · refine ⟨p, h.moved c hc' hcg, ?_⟩
      rw [h.kept p (hm.rooted.not_below_of_parent hg hp), unlinked, setLink_isSome]
      exact (hm.live p).mpr (hm.rooted.parent_below hg hp)
    · refine ⟨c, h.stays c hc' hcg, ?_⟩
      rw [h.kept c hcg, unlinked, setLink_isSome]
      exact hclive

end OfReleased

/-- A call for a registered group returns, and releases exactly its subtree. -/
theorem Menu.unregister (hm : s.Menu kids) (hg : (s.heap g).isSome) (hne : g ≠ rootGroup) :
    ∃ t, Returns (fun n => s.unregisterCommandGroup n (some g)) t ∧ (∃ kids, t.Menu kids) ∧
      (∀ a, t.heap a = none ↔ s.heap a = none ∨ Below s.parent a g) ∧
      ∃ L, t.freed = s.freed ++ L ∧ L.Nodup ∧ ∀ a, a ∈ L ↔ Below s.parent a g := by
  have hbelow := (hm.live g).mp hg
  obtain ⟨p, hp⟩ := Rooted.exists_parent hbelow hne
  have hplive := (hm.live p).mpr (hm.rooted.parent_below hbelow hp)
  obtain ⟨ep, hep⟩ := Option.isSome_iff_exists.mp hplive
  have hlist := hm.list p ep hep
  obtain ⟨A, B, hk⟩ := List.append_of_mem ((hm.mem p g hplive).mpr hp)
  rw [hk] at hlist
  have hout : ∀ a ∈ p :: A, ¬ Below s.parent a g := by
    intro a ha hag
    rcases List.mem_cons.mp ha with rfl | ha
    · exact hm.rooted.not_below_of_parent hbelow hp hag
    · have hap : s.parent a = some p := (hm.mem p a hplive).mp (hk ▸ List.mem_append_left _ ha)
      have hne : a ≠ g := by
        rintro rfl
        exact absurd hlist.nodup (by
          rw [List.nodup_middle, List.nodup_cons]
          exact fun hn => hn.1 (List.mem_append_left _ ha))
      exact hm.rooted.children_apart (hm.rooted.parent_below hbelow hp) hap hp hne (Below.refl a) hag
  obtain ⟨r, t, hcall, hfree⟩ := unregisters hm hbelow s A B p ep hp (fun _ _ => rfl) hep hlist hout
  have hreturns : Returns (fun n => s.unregisterCommandGroup n (some g)) t := hcall.map Prod.snd
  refine ⟨t, hreturns, ⟨_, hm.of_released hbelow hp hk hfree hne⟩, fun a => ?_, ?_⟩
  · by_cases ha : Below s.parent a g
    · simp [hfree.gone a ha, ha]
    · rw [hfree.kept a ha, unlinked, setLink_heap, Option.map_eq_none_iff, or_iff_left ha]
  · obtain ⟨L, hL, hrest⟩ := hfree.freed
    exact ⟨L, by rw [hL, unlinked, setLink_freed], hrest⟩

end Unregister

/-! ### Registering a group -/

section Register

variable {s : Context} {kids : ℕ → List ℕ} {a p : ℕ}

/-- The loop goes to the end of the list. -/
theorem lastEntry_returns {z : ℕ} {A : List ℕ} {first : ℕ} (h : Path s.next (some first) (A ++ [z]) none)
    (hz : (s.heap z).isSome) : Returns (fun n => s.lastEntry n first) z := by
  induction A generalizing first with
  | nil =>
    obtain ⟨hfirst, hlast⟩ := h
    obtain rfl := Option.some.inj hfirst
    obtain ⟨e, he⟩ := Option.isSome_iff_exists.mp hz
    have hnone : e.next = none := (next_of_heap he).symm.trans hlast
    exact .of_eq (n := 1) (by simp [lastEntry, he, hnone])
  | cons b A ih =>
    obtain ⟨hfirst, h⟩ := h
    obtain rfl := Option.some.inj hfirst
    obtain ⟨c, hc⟩ : ∃ c, s.next first = some c := by
      rw [h.head?_eq]
      cases A <;> simp
    obtain ⟨e, he, hnext⟩ := exists_of_next hc
    rw [hc] at h
    obtain ⟨n, hn⟩ := ih h
    refine .succ (.of_eq (n := n) ?_)
    simp only [lastEntry, he, Option.bind_some, hnext]
    exact hn

/-- The group at `a` is new, and the last one in the list of the group at `p`. -/
def registered (s : Context) (a p : ℕ) (c : CommandGroup) (K : List ℕ) : Context :=
  (s.store a ⟨none, some c, some p, none⟩).setLink p K.getLast? (some a)

theorem store_parent (s : Context) (a p : ℕ) (c : CommandGroup) :
    (s.store a ⟨none, some c, some p, none⟩).parent = Function.update s.parent a (some p) := by
  funext x
  by_cases hx : x = a
  · simp [parent, hx]
  · simp [parent, hx, store]

theorem store_next (s : Context) {a p : ℕ} (c : CommandGroup) (ha : s.heap a = none) :
    (s.store a ⟨none, some c, some p, none⟩).next = s.next := by
  funext x
  by_cases hx : x = a
  · simp [next, hx, ha]
  · simp [next, hx, store]

theorem store_isSome (s : Context) (e : Entry) {x : ℕ} :
    ((s.store a e).heap x).isSome ↔ x = a ∨ (s.heap x).isSome := by
  by_cases hx : x = a
  · simp [hx]
  · simp [hx, store]

/-- The tree with the new leaf. -/
theorem Menu.of_registered (hm : s.Menu kids) (ha : s.heap a = none) (hp : (s.heap p).isSome) (c : CommandGroup) :
    (s.registered a p c (kids p)).Menu (Function.update (Function.update kids a []) p (kids p ++ [a])) := by
  have haroot : ¬ Below s.parent a rootGroup := by
    rw [← hm.live, ha]
    simp
  have hleaf : ∀ x, s.parent x ≠ some a := by
    intro x hx
    obtain ⟨e, he, -⟩ := exists_of_parent hx
    exact haroot (hm.rooted.parent_below ((hm.live x).mp (by simp [he])) hx)
  have hpa : p ≠ a := by
    rintro rfl
    simp [ha] at hp
  have hpbelow := (hm.live p).mp hp
  have hak : ∀ x, (s.heap x).isSome → a ∉ kids x := by
    intro x hx hmem
    obtain ⟨e, he, -⟩ := exists_of_parent ((hm.mem x a hx).mp hmem)
    simp [ha] at he
  have hparent : (s.registered a p c (kids p)).parent = Function.update s.parent a (some p) := by
    rw [registered, setLink_parent, store_parent]
  have hz : ∀ z ∈ (kids p).getLast?, (s.heap z).isSome := by
    intro z hz
    obtain ⟨e, he, -⟩ := exists_of_parent ((hm.mem p z hp).mp (List.mem_of_getLast? hz))
    simp [he]
  have hnext : (s.registered a p c (kids p)).next = relink s.next (kids p).getLast? (some a) := by
    rw [registered, setLink_next fun z hz' => (store_isSome s _).mpr (.inr (hz z hz')), store_next s c ha]
  have hsome : ∀ x, ((s.registered a p c (kids p)).heap x).isSome ↔ x = a ∨ (s.heap x).isSome := fun x => by
    rw [registered, setLink_isSome, store_isSome]
  refine ⟨?_, fun x => ?_, fun x e hx => ?_, fun x b hx => ?_, fun x e hx hxr => ?_, ?_⟩
  · rw [hparent]
    exact hm.rooted.insert haroot hleaf hpbelow
  · rw [hsome, hparent, hm.rooted.below_insert_iff haroot hleaf hpbelow, hm.live]
  · obtain ⟨e₀, he₀, -, hsub⟩ := setLink_entry hx
    rw [hsub]
    by_cases hxa : x = a
    · subst hxa
      rw [store_heap_self] at he₀
      obtain rfl := Option.some.inj he₀
      rw [if_neg hpa.symm, Function.update_of_ne hpa.symm, Function.update_self]
      exact rfl
    rw [store_heap_of_ne _ _ hxa] at he₀
    have hlist := hm.list x e₀ he₀
    rw [hnext]
    by_cases hxp : x = p
    · subst hxp
      rw [if_pos rfl, Function.update_self]
      have hnone : s.next a = none := by rw [next, ha, Option.bind_none]
      have hlink := Path.link (A := kids x) (B := []) (i := a) (by simpa using hlist) (by simpa using hak x hp)
      rwa [List.head?_nil, Function.update_eq_self_iff.mpr hnone.symm] at hlink
    · rw [if_neg hxp, Function.update_of_ne hxp, Function.update_of_ne hxa]
      refine hlist.congr fun b hb => ?_
      have hbx : s.parent b = some x := (hm.mem x b (by simp [he₀])).mp hb
      exact relink_of_parent_ne hbx hxp fun z hz => (hm.mem p z hp).mp (List.mem_of_getLast? hz)
  · rw [hparent]
    rw [hsome] at hx
    by_cases hxa : x = a
    · subst hxa
      rw [Function.update_of_ne hpa.symm, Function.update_self]
      refine iff_of_false List.not_mem_nil fun hb => ?_
      by_cases hbx : b = x
      · rw [hbx, Function.update_self] at hb
        exact hpa (Option.some.inj hb)
      · rw [Function.update_of_ne hbx] at hb
        exact hleaf b hb
    have hx' := hx.resolve_left hxa
    by_cases hba : b = a
    · subst hba
      rw [Function.update_self]
      by_cases hxp : x = p
      · subst hxp
        simp
      · rw [Function.update_of_ne hxp, Function.update_of_ne hxa]
        exact iff_of_false (hak x hx') fun heq => hxp (Option.some.inj heq).symm
    · rw [Function.update_of_ne hba, ← hm.mem x b hx']
      by_cases hxp : x = p
      · subst hxp
        simp [hba]
      · rw [Function.update_of_ne hxp, Function.update_of_ne hxa]
  · obtain ⟨e₀, he₀, hname, -⟩ := setLink_entry hx
    rw [hname]
    by_cases hxa : x = a
    · subst hxa
      rw [store_heap_self] at he₀
      obtain rfl := Option.some.inj he₀
      rfl
    · rw [store_heap_of_ne _ _ hxa] at he₀
      exact hm.named x e₀ he₀ hxr
  · obtain ⟨b, hb, hblive⟩ := hm.current
    refine ⟨b, ?_, (hsome b).mpr (.inr hblive)⟩
    rw [registered, setLink_currentGroup]
    exact hb

/-- A call with a parent that is registered returns. -/
theorem Menu.register (hm : s.Menu kids) (ha : s.heap a = none) (hp : (s.heap p).isSome) (c : CommandGroup)
    {parentGroup : Option ℕ} (hparent : parentGroup.getD rootGroup = p) :
    Returns (fun n => s.registerCommandGroup n parentGroup (some c) (some a)) (s.registered a p c (kids p)) := by
  have hpa : p ≠ a := by
    rintro rfl
    simp [ha] at hp
  obtain ⟨e, he⟩ := Option.isSome_iff_exists.mp hp
  have hlist := hm.list p e he
  have he' : (s.store a ⟨none, some c, some p, none⟩).heap p = some e := by rw [store_heap_of_ne _ _ hpa, he]
  obtain hnil | ⟨A, z, hk⟩ := (kids p).eq_nil_or_concat
  · rw [hnil] at hlist
    have hnone : e.subgroupList = none := hlist
    refine .of_eq (n := 0) ?_
    simp only [registerCommandGroup, hparent, he', Option.bind_some, hnone, registered, hnil, List.getLast?_nil, setLink,
      Option.map_some]
    rfl
  · rw [List.concat_eq_append] at hk
    rw [hk] at hlist
    obtain ⟨first, hfirst⟩ : ∃ first, e.subgroupList = some first := by
      rw [hlist.head?_eq]
      cases A <;> simp
    obtain ⟨ez, hez, -⟩ := exists_of_parent ((hm.mem p z hp).mp (by simp [hk]))
    have hza : z ≠ a := by
      rintro rfl
      simp [ha] at hez
    have hez' : (s.store a ⟨none, some c, some p, none⟩).heap z = some ez := by rw [store_heap_of_ne _ _ hza, hez]
    rw [hfirst, ← store_next (p := p) s c ha] at hlist
    obtain ⟨n, hn⟩ := lastEntry_returns hlist (by simp [hez'])
    refine .of_eq (n := n) ?_
    have hlast : (A ++ [z]).getLast? = some z := by simp
    simp only [registerCommandGroup, hparent, he', Option.bind_some, hfirst, hn, hez', Option.map_some, registered, hk,
      hlast, setLink]
    rfl

end Register

/-! ### Moving through the tree -/

section Navigation

variable {s : Context} {kids : ℕ → List ℕ} {g : ℕ}

/-- The current group is another one of the tree. -/
theorem Menu.moveTo (hm : s.Menu kids) {c : ℕ} (hc : (s.heap c).isSome) : { s with currentGroup := some c }.Menu kids :=
  ⟨hm.rooted, hm.live, hm.list, hm.mem, hm.named, c, rfl, hc⟩

theorem subgroupByString_returns (name : List UInt8) {L : List ℕ} : ∀ {q : Option ℕ}, Path s.next q L none →
    (∀ k ∈ L, ∃ e c, s.heap k = some e ∧ e.commandGroup = some c) →
    ∃ r, Returns (fun n => s.subgroupByString name n q) r ∧ ∀ k ∈ r, k ∈ L := by
  induction L with
  | nil =>
    rintro _ rfl _
    exact ⟨none, .of_eq (n := 0) rfl, fun k hk => nomatch hk⟩
  | cons k L ih =>
    rintro _ ⟨rfl, h⟩ hL
    obtain ⟨e, c, he, hc⟩ := hL k List.mem_cons_self
    rw [next_of_heap he] at h
    by_cases heq : Qat.equalNoCase name c.groupString = true
    · refine ⟨some k, .of_eq (n := 1) (by simp [subgroupByString, he, hc, heq]), fun j hj => ?_⟩
      obtain rfl := Option.some.inj hj
      exact List.mem_cons_self
    · obtain ⟨r, ⟨n, hn⟩, hr⟩ := ih h fun j hj => hL j (List.mem_cons_of_mem k hj)
      refine ⟨r, .succ (.of_eq (n := n) ?_), fun j hj => List.mem_cons_of_mem k (hr j hj)⟩
      simp only [subgroupByString, he, hc, Option.bind_some, if_neg heq]
      exact hn

theorem subgroupByIndex_returns {L : List ℕ} : ∀ {q : Option ℕ} (i : ℤ), Path s.next q L none →
    (∀ k ∈ L, (s.heap k).isSome) → ∃ r, Returns (fun n => s.subgroupByIndex n i q) r ∧ ∀ k ∈ r, k ∈ L := by
  induction L with
  | nil =>
    rintro _ i rfl _
    exact ⟨none, .of_eq (n := 0) rfl, fun k hk => nomatch hk⟩
  | cons k L ih =>
    rintro _ i ⟨rfl, h⟩ hL
    obtain ⟨e, he⟩ := Option.isSome_iff_exists.mp (hL k List.mem_cons_self)
    rw [next_of_heap he] at h
    by_cases hi : i = 0
    · refine ⟨some k, .of_eq (n := 1) (by simp [subgroupByIndex, hi]), fun j hj => ?_⟩
      obtain rfl := Option.some.inj hj
      exact List.mem_cons_self
    · obtain ⟨r, ⟨n, hn⟩, hr⟩ := ih (i - 1) h fun j hj => hL j (List.mem_cons_of_mem k hj)
      refine ⟨r, .succ (.of_eq (n := n) ?_), fun j hj => List.mem_cons_of_mem k (hr j hj)⟩
      simp only [subgroupByIndex, he, Option.bind_some, if_neg hi]
      exact hn

/-- A group that is found is one of the tree. -/
def Finds (s : Context) (f : ℕ → Option (Option Found)) : Prop :=
  ∃ r, Returns f r ∧ ∀ c, r = some (.group c) → (s.heap c).isSome

theorem Finds.of_eq {r : Option Found} (h : ∀ c, r ≠ some (.group c)) : s.Finds fun _ => some r :=
  ⟨r, .const r, fun c hc => absurd hc (h c)⟩

theorem Finds.of_list {f : ℕ → Option (Option ℕ)} {L : List ℕ} (hL : ∀ k ∈ L, (s.heap k).isSome)
    (h : ∃ r, Returns f r ∧ ∀ k ∈ r, k ∈ L) : s.Finds fun n => (f n).map (·.map .group) := by
  obtain ⟨r, hr, hmem⟩ := h
  refine ⟨_, hr.map _, fun c hc => hL c (hmem c ?_)⟩
  cases r with
  | none => exact nomatch hc
  | some k =>
    cases hc
    rfl

theorem Menu.findCommand (hm : s.Menu kids) (hg : (s.heap g).isSome) (p : Qat.Parameter) :
    s.Finds fun n => s.findCommand n g p := by
  obtain ⟨e, he⟩ := Option.isSome_iff_exists.mp hg
  have hkids : ∀ k ∈ kids g, ∃ ek, s.heap k = some ek ∧ ek.parentGroup = some g := fun k hk =>
    exists_of_parent ((hm.mem g k hg).mp hk)
  have hlive : ∀ k ∈ kids g, (s.heap k).isSome := by
    intro k hk
    obtain ⟨ek, hek, -⟩ := hkids k hk
    rw [hek]
    rfl
  simp only [Context.findCommand, he, Option.bind_some]
  cases p.integerValue with
  | some i =>
    simp only [findCommandByIndex]
    split
    · exact .of_eq (by simp)
    split
    · split
      · exact .of_eq (by simp)
      split
      · exact .of_eq (by simp)
      · exact .of_list hlive (subgroupByIndex_returns _ (hm.list g e he) hlive)
    · exact .of_eq (by simp)
  | none =>
    simp only [findCommandByString]
    split
    · exact .of_eq (by simp)
    cases (search p.stringValue e.common 0 0).1 with
    | some i => exact .of_eq (by simp)
    | none =>
      cases (search p.stringValue e.commands 0 0).1 with
      | some i => exact .of_eq (by simp)
      | none =>
        refine .of_list hlive (subgroupByString_returns _ (hm.list g e he) fun k hk => ?_)
        obtain ⟨ek, hek, hp⟩ := hkids k hk
        -- the root, which may have no command group, is nobody's subgroup
        have hroot : k ≠ rootGroup := by
          rintro rfl
          rw [← parent_of_heap hek, hm.rooted.top] at hp
          cases hp
        obtain ⟨c, hc⟩ := Option.isSome_iff_exists.mp (hm.named k ek hek hroot)
        exact ⟨ek, c, hek, hc⟩

theorem Menu.searchParameters (hm : s.Menu kids) (ps : List Qat.Parameter) : ∀ {g : ℕ}, (s.heap g).isSome →
    s.Finds fun n => s.searchParameters n g ps := by
  induction ps with
  | nil =>
    intro g hg
    refine ⟨some (.group g), .of_eq (n := 0) rfl, fun c hc => ?_⟩
    obtain rfl : g = c := by simpa using hc
    exact hg
  | cons p ps ih =>
    intro g hg
    obtain ⟨r, hr, hfound⟩ := hm.findCommand hg p
    obtain ⟨m, hm'⟩ := hr.eventually (findCommand_steady s g p)
    match r with
    | some (.group c) =>
      obtain ⟨r', hr', hfound'⟩ := ih (hfound c rfl)
      obtain ⟨n, hn⟩ := hr'.eventually (searchParameters_steady s c ps)
      refine ⟨r', .of_eq (n := max m n) ?_, hfound'⟩
      simp only [Context.searchParameters, hm' _ (le_max_left m n), Option.bind_some]
      exact hn _ (le_max_right m n)
    | some .help | some (.common i) | some (.command i) | none =>
      exact ⟨_, .of_eq (n := m) (by simp only [Context.searchParameters, hm' m le_rfl, Option.bind_some]), hfound⟩

theorem Menu.commandUp (hm : s.Menu kids) : ∃ t, s.commandUp = some t ∧ t.Menu kids := by
  obtain ⟨c, hc, hlive⟩ := hm.current
  obtain ⟨e, he⟩ := Option.isSome_iff_exists.mp hlive
  cases hp : e.parentGroup with
  | none => exact ⟨s, by simp [Context.commandUp, hc, he, hp], hm⟩
  | some p =>
    refine ⟨{ s with currentGroup := some p }, by simp [Context.commandUp, hc, he, hp], hm.moveTo ((hm.live p).mpr ?_)⟩
    exact hm.rooted.parent_below ((hm.live c).mp hlive) ((parent_of_heap he).trans hp)

theorem Menu.commandRoot (hm : s.Menu kids) : ∃ t, s.commandRoot = some t ∧ t.Menu kids := by
  obtain ⟨c, hc, hlive⟩ := hm.current
  obtain ⟨e, he⟩ := Option.isSome_iff_exists.mp hlive
  cases hp : e.parentGroup with
  | none => exact ⟨s, by simp [Context.commandRoot, hc, he, hp], hm⟩
  | some p =>
    exact ⟨{ s with currentGroup := some rootGroup }, by simp [Context.commandRoot, hc, he, hp],
      hm.moveTo ((hm.live rootGroup).mpr (Below.refl rootGroup))⟩

/-- A line moves the current group to another one of the tree. -/
theorem Menu.processCommand (hm : s.Menu kids) (ps : List Qat.Parameter) :
    ∃ t, Returns (fun n => s.processCommand n ps) t ∧ t.Menu kids := by
  obtain ⟨c, hc, hlive⟩ := hm.current
  obtain ⟨r, ⟨n, hn⟩, hfound⟩ := hm.searchParameters ps hlive
  have hstep : ∀ {t}, s.processCommand n ps = some t → Returns (fun n => s.processCommand n ps) t := fun h => ⟨n, h⟩
  match r with
  | some (.group c') =>
    exact ⟨_, hstep (by simp only [Context.processCommand, hc, Option.bind_some, hn]), hm.moveTo (hfound c' rfl)⟩
  | some (.common 0) =>
    obtain ⟨t, ht, hmenu⟩ := hm.commandUp
    exact ⟨t, hstep (by simp only [Context.processCommand, hc, Option.bind_some, hn, ht]), hmenu⟩
  | some (.common 1) =>
    obtain ⟨t, ht, hmenu⟩ := hm.commandRoot
    exact ⟨t, hstep (by simp only [Context.processCommand, hc, Option.bind_some, hn, ht]), hmenu⟩
  | some (.common (i + 2)) | some .help | some (.command i) | none =>
    exact ⟨s, hstep (by simp only [Context.processCommand, hc, Option.bind_some, hn]), hm⟩

end Navigation

/-! ### Whole runs -/

variable {s t : Context} {kids : ℕ → List ℕ}

theorem menu_init (commandGroup : Option CommandGroup) : (init commandGroup).Menu fun _ => [] := by
  have hheap : ∀ a e, (init commandGroup).heap a = some e → a = rootGroup ∧ e = ⟨none, commandGroup, none, none⟩ := by
    intro a e he
    by_cases ha : a = rootGroup
    · subst ha
      simp only [init, Function.update_self, Option.some.injEq] at he
      exact ⟨rfl, he.symm⟩
    · simp [init, ha] at he
  have hparent : ∀ a, (init commandGroup).parent a = none := by
    intro a
    cases he : (init commandGroup).heap a with
    | none => rw [parent, he, Option.bind_none]
    | some e =>
      obtain ⟨-, rfl⟩ := hheap a e he
      rw [parent_of_heap he]
  have hbelow : ∀ a, Below (init commandGroup).parent a rootGroup ↔ a = rootGroup := by
    intro a
    rw [Below.iff_up]
    simp [hparent]
  refine ⟨⟨hparent _, ?_⟩, fun a => ?_, fun g e he => ?_, fun g c _ => ?_, fun g e he hg => ?_, rootGroup, rfl, rfl⟩
  · simp only [hbelow]
    exact Set.finite_singleton rootGroup
  · rw [hbelow]
    by_cases ha : a = rootGroup <;> simp [init, ha]
  · obtain ⟨-, rfl⟩ := hheap g e he
    exact rfl
  · simp [hparent]
  · exact absurd (hheap g e he).1 hg

/-- Every call returns, and leaves a tree with the current group in it. -/
theorem Menu.act (hm : s.Menu kids) {a : Act} (ha : s.Legal a) :
    ∃ t, Returns (fun n => s.act n a) t ∧ ∃ kids, t.Menu kids := by
  cases a with
  | register parentGroup commandGroup malloc =>
    match commandGroup, malloc with
    | some c, some a =>
      obtain ⟨hparent, hfresh⟩ := ha
      have hp : (s.heap (parentGroup.getD rootGroup)).isSome := by
        cases parentGroup with
        | none => exact (hm.live _).mpr (Below.refl _)
        | some p => exact hparent p rfl
      exact ⟨_, hm.register (hfresh a rfl) hp c rfl, _, hm.of_registered (hfresh a rfl) hp c⟩
    | some _, none | none, _ => exact ⟨s, .of_eq (n := 0) rfl, kids, hm⟩
  | unregister groupHandle =>
    cases groupHandle with
    | none => exact ⟨s, .of_eq (n := 0) rfl, kids, hm⟩
    | some g =>
      obtain ⟨hg, hne⟩ := ha g rfl
      obtain ⟨t, ht, hmenu, -⟩ := hm.unregister hg hne
      exact ⟨t, ht, hmenu⟩
  | up =>
    obtain ⟨t, ht, hmenu⟩ := hm.commandUp
    exact ⟨t, .of_eq (n := 0) ht, kids, hmenu⟩
  | root =>
    obtain ⟨t, ht, hmenu⟩ := hm.commandRoot
    exact ⟨t, .of_eq (n := 0) ht, kids, hmenu⟩
  | line ps =>
    obtain ⟨t, ht, hmenu⟩ := hm.processCommand ps
    exact ⟨t, ht, kids, hmenu⟩

theorem menu_reach {commandGroup : Option CommandGroup} (h : Reach Step (init commandGroup) s) :
    ∃ kids, s.Menu kids := by
  refine h.inv (P := fun s => ∃ kids, s.Menu kids) ⟨_, menu_init commandGroup⟩ ?_
  rintro x y ⟨a, fuel, hlegal, hact⟩ ⟨kids, hm⟩
  obtain ⟨t, ht, hmenu⟩ := hm.act hlegal
  rwa [Returns.unique (act_steady x a) ⟨fuel, hact⟩ ht]

/-- Whatever is registered, unregistered and entered: the allocated groups are a tree with root `Root_Group`, each of
    them once in the list of its parent, and the current group is one of them. The next call returns, whichever it is;
    one that unregisters a group releases exactly that group and its descendants, each once. -/
theorem current_group_live {commandGroup : Option CommandGroup} (h : Reach Step (init commandGroup) s) :
    (∃ kids, s.Menu kids ∧ ∀ g, (s.heap g).isSome → (kids g).Nodup) ∧
      (∀ a, s.Legal a → ∃ t, Returns (fun n => s.act n a) t) ∧
      ∀ g, (s.heap g).isSome → g ≠ rootGroup → ∀ t, Returns (fun n => s.act n (.unregister (some g))) t →
        (∀ a, t.heap a = none ↔ s.heap a = none ∨ Below s.parent a g) ∧
          ∃ L, t.freed = s.freed ++ L ∧ L.Nodup ∧ ∀ a, a ∈ L ↔ Below s.parent a g := by
  obtain ⟨kids, hm⟩ := menu_reach h
  refine ⟨⟨kids, hm, fun g hg => ?_⟩, fun a ha => ?_, fun g hg hne t ht => ?_⟩
  · obtain ⟨e, he⟩ := Option.isSome_iff_exists.mp hg
    exact (hm.list g e he).nodup
  · obtain ⟨t, ht, -⟩ := hm.act ha
    exact ⟨t, ht⟩
  · obtain ⟨t', ht', -, hheap, hfreed⟩ := hm.unregister hg hne
    obtain rfl := Returns.unique (act_steady s _) ht ht'
    exact ⟨hheap, hfreed⟩

theorem step_getD (s : Context) (a : Act) (n : ℕ) (ha : s.Legal a) (h : (s.act n a).isSome) :
    Step s ((s.act n a).getD s) := by
  obtain ⟨t, ht⟩ := Option.isSome_iff_exists.mp h
  exact ⟨a, n, ha, by rw [ht, Option.getD_some]⟩

/-- A group. -/
def oneGroup : Context := ((init none).act 1 (.register none (some ⟨[0x41], []⟩) (some 1))).getD (init none)

/-- A group with a subgroup. -/
def twoGroups : Context := (oneGroup.act 1 (.register (some 1) (some ⟨[0x42], []⟩) (some 2))).getD oneGroup

/-- The subgroup is entered, by the numbers in the two lists. -/
def entered : Context := (twoGroups.act 1 (.line [⟨[0x32], some 2⟩, ⟨[0x34], some 4⟩])).getD twoGroups

theorem entered_reach : Reach Step (init none) entered := by
  have h₁ := step_getD (init none) (.register none (some ⟨[0x41], []⟩) (some 1)) 1
    ⟨fun p hp => (nomatch hp), fun a ha => by cases ha; rfl⟩ (by decide +kernel)
  have h₂ := step_getD oneGroup (.register (some 1) (some ⟨[0x42], []⟩) (some 2)) 1
    ⟨fun p hp => by cases hp; decide +kernel, fun a ha => by cases ha; rfl⟩ (by decide +kernel)
  have h₃ := step_getD twoGroups (.line [⟨[0x32], some 2⟩, ⟨[0x34], some 4⟩]) 1 trivial (by decide +kernel)
  exact .tail (.tail (.tail .refl h₁) h₂) h₃

theorem current_group_live_entered :
    (∃ kids, entered.Menu kids ∧ ∀ g, (entered.heap g).isSome → (kids g).Nodup) ∧
      (∀ a, entered.Legal a → ∃ t, Returns (fun n => entered.act n a) t) ∧
      ∀ g, (entered.heap g).isSome → g ≠ rootGroup → ∀ t, Returns (fun n => entered.act n (.unregister (some g))) t →
        (∀ a, t.heap a = none ↔ entered.heap a = none ∨ Below entered.parent a g) ∧
          ∃ L, t.freed = entered.freed ++ L ∧ L.Nodup ∧ ∀ a, a ∈ L ↔ Below entered.parent a g :=
  current_group_live entered_reach

/-- The subgroup is current when its group is unregistered. -/
example : entered.currentGroup = some 2 ∧
    (entered.act 3 (.unregister (some 1))).map (fun s => (s.currentGroup, s.freed)) = some (some 0, [2, 1]) := by
  decide +kernel

end Context

end Qcc730.Console.Groups
