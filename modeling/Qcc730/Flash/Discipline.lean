import Qcc730.Flash.Device
import Qcc730.Lib.Reach

/-! Erase before program.

    Programming a flash byte only clears bits, so a byte reads back as it was programmed only if it was erased
    before and not programmed since. Here this is said about the log of writes: a byte is vacant after a log when
    one of the writes that count erased it and no later one programmed it. A write is in order when it programs
    vacant bytes only and erases nothing that was programmed from a given point of the log on. -/

namespace Qcc730.Flash
open Lib

/-- The flash addresses that a write programs. -/
def Write.programmed : Write → Range
  | .program a d => ⟨a, d.length⟩
  | _ => ⟨0, 0⟩

/-- The flash addresses that a write erases. -/
def Write.erased : Write → Range
  | .erase a => ⟨a, 4096⟩
  | _ => ⟨0, 0⟩

/-- The byte at `x` was erased by one of the writes `P` of the log and not programmed since. -/
def Vacant (P : ℕ → Prop) (log : List Write) (x : ℕ) : Prop :=
  ∃ j w, P j ∧ log[j]? = some w ∧ x ∈ w.erased ∧ ∀ k v, j < k → log[k]? = some v → x ∉ v.programmed

/-- The byte at `x` was programmed by a write from number `n` on. -/
def ProgrammedSince (n : ℕ) (log : List Write) (x : ℕ) : Prop := ∃ v ∈ log.drop n, x ∈ v.programmed

/-- After `log` the write programs vacant bytes only and erases nothing programmed since `n`. -/
structure InOrder (P : ℕ → Prop) (n : ℕ) (log : List Write) (w : Write) : Prop where
  vacant : ∀ x ∈ w.programmed, Vacant P log x
  kept : ∀ x ∈ w.erased, ¬ProgrammedSince n log x

/-- Each of the writes `ws`, made after `log`, is in order. -/
def AllInOrder (P : ℕ → Prop) (n : ℕ) : List Write → List Write → Prop :=
  Along (fun log w => log ++ [w]) (InOrder P n)

variable {P : ℕ → Prop} {n x : ℕ} {log ws vs : List Write}

theorem foldl_snoc (log ws : List Write) : ws.foldl (fun log w => log ++ [w]) log = log ++ ws := by
  induction ws generalizing log with
  | nil => simp
  | cons w ws ih => rw [List.foldl_cons, ih, List.append_assoc, List.singleton_append]

theorem allInOrder_append : AllInOrder P n log (ws ++ vs) ↔ AllInOrder P n log ws ∧ AllInOrder P n (log ++ ws) vs := by
  rw [AllInOrder, Along.append, foldl_snoc]

theorem allInOrder_nil : AllInOrder P n log [] := trivial

/-! ### Vacant bytes -/

theorem not_mem_empty : x ∉ (⟨0, 0⟩ : Range) := by
  rw [Range.mem_mk]
  omega

/-- A vacant byte stays vacant until it is programmed. -/
theorem Vacant.append (h : Vacant P log x) (hw : ∀ w ∈ ws, x ∉ w.programmed) : Vacant P (log ++ ws) x := by
  obtain ⟨j, w, hP, hj, hx, hk⟩ := h
  have hlt : j < log.length := (List.getElem?_eq_some_iff.mp hj).1
  refine ⟨j, w, hP, by rw [List.getElem?_append_left hlt, hj], hx, ?_⟩
  intro k v hjk hv
  by_cases hkl : k < log.length
  · exact hk k v hjk (by rwa [List.getElem?_append_left hkl] at hv)
  · rw [List.getElem?_append_right (by omega)] at hv
    exact hw v (List.mem_of_getElem? hv)

/-- What is erased is vacant. -/
theorem vacant_erased {a : ℕ} (hP : P log.length) (hx : x ∈ (⟨a, 4096⟩ : Range)) : Vacant P (log ++ [.erase a]) x := by
  refine ⟨log.length, .erase a, hP, by simp, hx, ?_⟩
  intro k v hk hv
  rw [List.getElem?_eq_none (by simp; omega)] at hv
  cases hv

/-- The blocks of one erase are vacant. -/
theorem vacant_eraseBlocks {start cnt : ℕ} (hP : ∀ j, log.length ≤ j → j < log.length + cnt → P j)
    (hx : x ∈ (⟨start * 4096, cnt * 4096⟩ : Range)) : Vacant P (log ++ eraseBlocks start cnt) x := by
  induction cnt with
  | zero =>
    rw [Range.mem_mk] at hx
    omega
  | succ k ih =>
    rw [eraseBlocks_succ, ← List.append_assoc]
    have hlen : (log ++ eraseBlocks start k).length = log.length + k := by simp [eraseBlocks]
    rw [Range.mem_mk] at hx
    by_cases hlast : start * 4096 + k * 4096 ≤ x
    · have hin : x < start * 4096 + k * 4096 + 4096 := by omega
      exact vacant_erased (hP _ (by omega) (by omega)) ⟨hlast, hin⟩
    · have hin : x < start * 4096 + k * 4096 := by omega
      refine (ih (fun j h₁ h₂ => hP j h₁ (by omega)) ⟨hx.1, hin⟩).append ?_
      intro w hw
      rw [List.mem_singleton] at hw
      rw [hw]
      exact not_mem_empty

theorem ProgrammedSince.append (hn : n ≤ log.length) :
    ProgrammedSince n (log ++ ws) x ↔ ProgrammedSince n log x ∨ ∃ w ∈ ws, x ∈ w.programmed := by
  rw [ProgrammedSince, ProgrammedSince, List.drop_append_of_le_length hn]
  simp only [List.mem_append, or_and_right, exists_or]

/-- Erasing what was not programmed is in order. -/
theorem inOrder_erase {a : ℕ} (h : ∀ x ∈ (⟨a, 4096⟩ : Range), ¬ProgrammedSince n log x) :
    AllInOrder P n log [.erase a] := by
  exact ⟨⟨fun _ hx => absurd hx not_mem_empty, h⟩, trivial⟩

/-- A write that is not to flash is in order. -/
theorem inOrder_rram (a : ℕ) (d : Bytes) : AllInOrder P n log [.rram a d] :=
  ⟨⟨fun _ hx => absurd hx not_mem_empty, fun _ hx => absurd hx not_mem_empty⟩, trivial⟩

/-- Programming vacant bytes page by page is in order. -/
theorem inOrder_pages : ∀ (m a : ℕ) (bs : Bytes) (log : List Write), (∀ x ∈ (⟨a, bs.length⟩ : Range), Vacant P log x) →
    AllInOrder P n log (pages m a bs)
  | 0, _, _, _, _ => trivial
  | _ + 1, _, [], _, _ => trivial
  | m + 1, a, b :: bs, log, h => by
    rw [pages]
    set k := if a % 256 ≠ 0 then min (256 - a % 256) (b :: bs).length else min 256 (b :: bs).length
      with hk
    have hkl : k ≤ (b :: bs).length := by rw [hk]; split <;> omega
    have htake : ((b :: bs).take k).length = k := by rw [List.length_take]; omega
    refine ⟨⟨?_, fun x hx => absurd hx not_mem_empty⟩, inOrder_pages m _ _ _ ?_⟩
    · intro x hx
      rw [Write.programmed, htake, Range.mem_mk] at hx
      exact h x (Range.mem_mk.mpr (by omega))
    · intro x hx
      rw [List.length_drop, Range.mem_mk] at hx
      refine (h x (Range.mem_mk.mpr (by omega))).append ?_
      intro w hw
      rw [List.mem_singleton] at hw
      rw [hw, Write.programmed, htake, Range.mem_mk]
      omega

theorem pages_programmed {m a : ℕ} {bs : Bytes} {w : Write} (hw : w ∈ pages m a bs) (hx : x ∈ w.programmed) :
    a ≤ x ∧ x < a + bs.length := by
  have hr : x ∈ w.flashRange := by
    cases w with
    | program a d => exact hx
    | erase a => exact absurd hx not_mem_empty
    | rram a d => exact absurd hx not_mem_empty
    | fde i e => exact absurd hx not_mem_empty
  exact Range.mem_mk.mp ((pages_sub m a bs w hw).1 x hr)

/-! ### What the memory holds -/

theorem Mem.app_flash_blank {m : Mem} {w : Write} (h : m.flash x = 0xFF) (hx : x ∉ w.programmed) :
    (m.app w).flash x = 0xFF := by
  cases w with
  | erase a =>
    show m.flash.erase a 4096 x = 0xFF
    by_cases hin : a ≤ x ∧ x < a + 4096
    · exact Memory.erase_in hin.1 hin.2
    · rw [Memory.erase_out (by omega), h]
  | program a d => exact (Mem.app_flash_out hx).trans h
  | rram a d => exact h
  | fde i e => exact h

/-- A byte that one of the writes made to the device left vacant is blank. -/
theorem Vacant.blank {d₀ d : Dev} (hd : ∃ ws, d = d₀.writes ws) (hP : ∀ j, P j → d₀.log.length ≤ j)
    (h : Vacant P d.log x) : d.mem.flash x = 0xFF := by
  obtain ⟨ws, rfl⟩ := hd
  obtain ⟨j, w, hj, hw, hx, hk⟩ := h
  have hle := hP j hj
  rw [Dev.writes_log, List.getElem?_append_right hle] at hw
  obtain ⟨hlt, hget⟩ := List.getElem?_eq_some_iff.mp hw
  have hsplit : ws = ws.take (j - d₀.log.length) ++ w :: ws.drop (j - d₀.log.length + 1) := by
    rw [← hget, List.getElem_cons_drop, List.take_append_drop]
  rw [Dev.writes_mem, hsplit, replay_append, replay_cons]
  refine replay_inv Mem.app (P := fun m => m.flash x = 0xFF) ?_ ?_
  · intro v hv m hm
    obtain ⟨i, hi⟩ := List.mem_iff_getElem?.mp hv
    rw [List.getElem?_drop] at hi
    refine Mem.app_flash_blank hm (hk (j + 1 + i) v (by omega) ?_)
    rw [Dev.writes_log, List.getElem?_append_right (by omega), ← hi]
    congr 1
    omega
  · cases w with
    | erase a => exact Memory.erase_in hx.1 hx.2
    | program a d => exact absurd hx not_mem_empty
    | rram a d => exact absurd hx not_mem_empty
    | fde i e => exact absurd hx not_mem_empty

end Qcc730.Flash
